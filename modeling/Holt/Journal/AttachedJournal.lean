import Holt.Journal.WalReplay
import Holt.Lib.Transition

/-!
# Attached journals

A WAL of the current format may carry the application's recovery stream: every record is a
batch with an envelope, and each envelope continues the anchor of the one before.  The two
slots of the file header hold the anchor of the last checkpoint.  A checkpoint first syncs the
records, then writes the anchor of the last one into both slots, one after the other, and then
truncates the records.

The model keeps the bytes of the slots and the records in the file.  A step is a write of one
slot, a truncation of the file or something that happens in memory only; a crash may come
between any two steps.  It may leave anything in the slot that was being written as long as
that is not mistaken for a slot, and it may cut the records anywhere behind those that were
synced.  Opening the file again validates the chain (`validate_attached_journal`) and drops a
torn tail (`replay_wal`).

Left out: writes that fail without a crash, and with them the field `initializing`, which
only a failed initialisation leaves set; `scan_resume`, a cache of the page scanner.
-/

namespace Holt
namespace Journal

open Layout LittleEndian

/-! ## Validation -/

/-- Why an attached journal is refused. -/
inductive AttachedError
  | sanity (context : SanityContext) (recordOffset : ℕ)
  /-- Attached envelopes without a stream anchor. -/
  | streamUninitialized
deriving DecidableEq

structure JournalState where
  checkpoint : JournalAnchor
  tail : JournalAnchor
deriving DecidableEq

structure AttachedChain where
  checkpoint : Option JournalAnchor
  tail : Option JournalAnchor
  previousRecord : Option JournalAnchor

namespace AttachedChain

def new (checkpoint : Option JournalAnchor) : AttachedChain := ⟨checkpoint, checkpoint, none⟩

/-- `observe`: the chain afterwards, and whether the envelope is behind the checkpoint. -/
def observe (chain : AttachedChain) (version : FormatVersion) (envelope : JournalEnvelope)
    (recordOffset : ℕ) : Except AttachedError (AttachedChain × Bool) :=
  if version = .legacy then .error (.sanity .attachedNeedsFormat4 recordOffset)
  else
    match chain.checkpoint with
    | none => .error .streamUninitialized
    | some checkpoint =>
      if chain.previousRecord.any (fun previous => envelope.previous ≠ previous) then
        .error (.sanity .chainBroken recordOffset)
      else
        let chain := { chain with previousRecord := some envelope.current }
        if envelope.current.sequence < checkpoint.sequence then .ok (chain, false)
        else if envelope.current.sequence = checkpoint.sequence then
          if envelope.current ≠ checkpoint then .error (.sanity .checkpointConflict recordOffset)
          else .ok (chain, false)
        else if some envelope.previous ≠ chain.tail then
          .error (.sanity .suffixGap recordOffset)
        else .ok ({ chain with tail := some envelope.current }, true)

def state (chain : AttachedChain) : Option JournalState :=
  match chain.checkpoint, chain.tail with
  | some checkpoint, some tail => some ⟨checkpoint, tail⟩
  | _, _ => none

end AttachedChain

/-- `MAX_JOURNAL_RECORD_BYTES`. -/
def maxJournalRecordBytes : ℕ := 16 * 1024 * 1024

/-- `StreamingRecords::next_record`: the record at the front of what is left of the file, with
its length, or `none` at the end of the file and at a torn tail. -/
def nextRecord (crc : List Byte → UInt32) (header : FileHeader) (buf : List Byte)
    (recordOffset : ℕ) : Except AttachedError (Option (WalOp × ℕ)) :=
  if buf.length < recordHeaderSize then .ok none
  else if value (buf.take 4) ≠ recordMagic then
    .error (.sanity .recordMagicMismatch recordOffset)
  else
    let total := recordHeaderSize + bodyLenField buf + recordFooterSize
    if buf.length < total then .ok none
    else if maxJournalRecordBytes < total then .error (.sanity .recordExceedsLimit recordOffset)
    else
      match decodeRecord crc (buf.take total) with
      | .error c => .error (.sanity c recordOffset)
      | .ok r =>
        if header.checkpointAnchor.isSome ∧ r.op.isAttached = false then
          .error (.sanity .ordinaryInAttached recordOffset)
        else .ok (some (r.op, r.bytesConsumed))

/-- The loop of `validate_attached_journal`.  Every record takes bytes, so their number bounds
the turns. -/
def validateLoop (crc : List Byte → UInt32) (header : FileHeader) :
    ℕ → List Byte → ℕ → AttachedChain → Except AttachedError AttachedChain
  | 0, _, _, chain => .ok chain
  | fuel + 1, buf, recordOffset, chain =>
    match nextRecord crc header buf recordOffset with
    | .error e => .error e
    | .ok none => .ok chain
    | .ok (some (.dbBatchWithEnvelope envelope _, size)) =>
      match chain.observe header.version envelope recordOffset with
      | .error e => .error e
      | .ok (chain', _) =>
        validateLoop crc header fuel (buf.drop size) (recordOffset + size) chain'
    | .ok (some (_, size)) =>
      validateLoop crc header fuel (buf.drop size) (recordOffset + size) chain

/-- `validate_attached_journal`.  The magic and the version are checked on the first bytes
already, with the same errors as in the whole header. -/
def validateAttachedJournal (crc : List Byte → UInt32) (bytes : List Byte) :
    Except AttachedError (Option JournalState) :=
  if bytes.length < FormatVersion.legacy.headerSize then .error (.sanity .walTooShort 0)
  else
    match decodeFileHeader crc bytes with
    | .error c => .error (.sanity c 0)
    | .ok header =>
      (validateLoop crc header bytes.length (bytes.drop header.recordOffset) header.recordOffset
        (.new header.checkpointAnchor)).map AttachedChain.state

/-! ## The journal and its file -/

/-- An attached batch as it is submitted. -/
structure AttachedRecord where
  seq : UInt64
  treeId : UInt64
  envelope : JournalEnvelope
  pushes : List Push
deriving DecidableEq

namespace AttachedRecord

def record (r : AttachedRecord) : WalRecord := .batch r.seq r.treeId (some r.envelope) r.pushes

def written (crc : List Byte → UInt32) (r : AttachedRecord) : List Byte := r.record.written crc

/-- The record can be written, and is not longer than the ring. -/
def Accepted (crc : List Byte → UInt32) (r : AttachedRecord) : Prop :=
  r.record.Writable ∧ (r.written crc).length ≤ maxJournalRecordBytes

instance (crc : List Byte → UInt32) (r : AttachedRecord) : Decidable (r.Accepted crc) :=
  inferInstanceAs (Decidable (_ ∧ _))

end AttachedRecord

/-- Work on the anchor slots in progress: `persist_checkpoint_anchor` has `left` generations to
write. -/
structure Persist where
  anchor : JournalAnchor
  left : ℕ
  /-- For a checkpoint, not for an initialisation. -/
  truncating : Bool
deriving DecidableEq

/-- The file and the journal that has it open. -/
structure AttachedJournal where
  slotA : List Byte
  slotB : List Byte
  records : List AttachedRecord
  /-- How many of the records no crash can lose. -/
  synced : ℕ
  /-- `checkpoint_anchor` and `anchor_generation` in the writer's copy of the header. -/
  anchor : Option JournalAnchor
  generation : UInt64
  /-- `TailState`. -/
  checkpoint : Option JournalAnchor
  tail : Option JournalAnchor
  persist : Option Persist

namespace AttachedJournal

variable (crc : List Byte → UInt32) (s : AttachedJournal)

/-- A new WAL. -/
def created : AttachedJournal :=
  ⟨List.replicate 128 0, List.replicate 128 0, [], 0, none, 0, none, none, none⟩

def blocks : List (List Byte) := s.records.map (AttachedRecord.written crc)

/-- `persist_checkpoint_anchor`, up to its first write: one generation to repair the sibling of
an anchor that is there, two for a new one, or `none` if they are used up. -/
def beginPersist (anchor : JournalAnchor) (truncating : Bool) : Option AttachedJournal :=
  let generations := if s.anchor = some anchor then 1 else 2
  if s.generation.toNat + generations < 2 ^ 64 then
    some { s with persist := some ⟨anchor, generations, truncating⟩ }
  else none

/-- The slot of generation `s.generation + 1`. -/
def setSlot (slot : List Byte) : AttachedJournal :=
  if s.generation.toNat % 2 = 0 then { s with slotA := slot } else { s with slotB := slot }

lemma setSlot_eq (slot : List Byte) : s.setSlot slot =
    { s with slotA := (s.setSlot slot).slotA, slotB := (s.setSlot slot).slotB } := by
  unfold setSlot
  split_ifs <;> rfl

/-- The slot that the next generation overwrites. -/
def nextSlot : List Byte := if s.generation.toNat % 2 = 0 then s.slotA else s.slotB

/-- What a crash may leave in the slot of a write: the old bytes, the new ones, or bytes that are
no slot. -/
def TornSlot (slot : List Byte) : Prop :=
  ∃ p, s.persist = some p ∧ 0 < p.left ∧ slot.length = anchorSlotSize ∧
    (slot = s.nextSlot ∨ slot = encodeAnchorSlot crc p.anchor (s.generation + 1) ∨
      decodeAnchorSlot crc slot = none)

instance (slot : List Byte) : Decidable (s.TornSlot crc slot) :=
  match h : s.persist with
  | none => isFalse (fun ⟨_, hp, _⟩ => by rw [h] at hp; cases hp)
  | some p => decidable_of_iff (0 < p.left ∧ slot.length = anchorSlotSize ∧
      (slot = s.nextSlot ∨ slot = encodeAnchorSlot crc p.anchor (s.generation + 1) ∨
        decodeAnchorSlot crc slot = none))
      ⟨fun hp => ⟨p, h, hp⟩, fun ⟨q, hq, hp⟩ => by
        rw [h, Option.some.injEq] at hq
        exact hq ▸ hp⟩

/-- The file after a crash: `torn` is what is left in the slot of a write in progress, `cut` how
many bytes of the records. -/
def image (treeId createdAt : UInt64) (torn : Option (List Byte)) (cut : ℕ) : List Byte :=
  let file := torn.elim s s.setSlot
  headerPage treeId createdAt file.slotA file.slotB ++ (s.blocks crc).flatten.take cut

/-- `Journal::open_or_create` on the file after a crash, its torn tail dropped. -/
def reopen (treeId createdAt : UInt64) (torn : Option (List Byte)) (cut : ℕ) :
    Option AttachedJournal :=
  let file := torn.elim s s.setSlot
  let kept := wholeBlocks (s.blocks crc) cut
  match decodeCheckpointAnchor crc file.slotA file.slotB,
      validateAttachedJournal crc (s.image crc treeId createdAt torn cut) with
  | .ok (anchor, generation), .ok state => some
    { slotA := file.slotA
      slotB := file.slotB
      records := s.records.take kept
      synced := kept
      anchor := anchor
      generation := generation
      checkpoint := state.map JournalState.checkpoint
      tail := state.map JournalState.tail
      persist := none }
  | _, _ => none

end AttachedJournal

inductive AttachedAction
  | initializeAnchor (genesis : JournalAnchor)
  | submit (r : AttachedRecord)
  | syncRecords
  | truncate
  /-- `persist_anchor_generation`. -/
  | writeSlot
  /-- The call that persists an anchor goes on after its last slot. -/
  | persisted
  /-- A crash with what it leaves of a slot and of the records, and the reopening. -/
  | crash (torn : Option (List Byte)) (cut : ℕ)

/-- One step of the journal.  A call that persists an anchor holds the locks of the tail and of
the writer, so only its own steps, or a crash, come before it returns. -/
def attachedStep (crc : List Byte → UInt32) (treeId createdAt : UInt64) (s : AttachedJournal) :
    AttachedAction → Option AttachedJournal
  | .initializeAnchor genesis =>
    if s.persist.isNone then
      match s.checkpoint with
      | some existing => if existing = genesis then s.beginPersist genesis false else none
      | none => if s.records = [] then s.beginPersist genesis false else none
    else none
  | .submit r =>
    if s.persist.isNone ∧ s.tail = some r.envelope.previous ∧ r.Accepted crc then
      some { s with records := s.records ++ [r], tail := some r.envelope.current }
    else none
  | .syncRecords => if s.persist.isNone then some { s with synced := s.records.length } else none
  | .truncate =>
    if s.persist.isNone then
      match s.tail with
      -- `checkpoint_and_truncate` syncs before it persists an anchor
      | some tail => { s with synced := s.records.length }.beginPersist tail true
      | none => some { s with records := [], synced := 0 }
    else none
  | .writeSlot =>
    match s.persist with
    | some p =>
      if 0 < p.left then
        some { s.setSlot (encodeAnchorSlot crc p.anchor (s.generation + 1)) with
          anchor := some p.anchor
          generation := s.generation + 1
          persist := some { p with left := p.left - 1 } }
      else none
    | none => none
  | .persisted =>
    match s.persist with
    | some p =>
      if p.left = 0 then
        if p.truncating then
          some { s with records := [], synced := 0, checkpoint := s.tail, persist := none }
        else if s.checkpoint.isNone then
          some { s with checkpoint := some p.anchor, tail := some p.anchor, persist := none }
        else some { s with persist := none }
      else none
    | none => none
  | .crash torn cut =>
    if (∀ slot ∈ torn, s.TornSlot crc slot) ∧ s.synced ≤ wholeBlocks (s.blocks crc) cut then
      s.reopen crc treeId createdAt torn cut
    else none

end Journal
end Holt
