import Holt.Journal.Ring
import Holt.Lib.ByteReader

/-!
# WAL records

The byte format of the journal.  A record is a header (magic, length of the body, sequence
number, tag), a body and the CRC of both.  A single operation has a record of its own; a batch
is built by `BatchEncoder`, which appends one inner frame for an operation or for a run of
inserts (of one shape, or with a common prefix of their keys) and writes the number of
operations into the body when it is finished.  A batch of a database may carry an envelope with
the application's own recovery data.

Encoding and decoding follow the source field by field.  Where the encoder would panic
(a length that does not fit its field, a run whose items do not match its count) the model
returns `none`; the running count of a batch is an unchecked `u32` and wraps.  The CRC is that
of the `crc32fast` crate and a parameter here.
-/

namespace Holt
namespace Journal

open ByteReader LittleEndian

/-! ## Envelopes -/

/-- A position in the application's recovery stream. -/
structure JournalAnchor where
  sequence : UInt64
  digest : {d : List Byte // d.length = 32}
deriving DecidableEq

/-- The application's recovery data of one batch.  There is no value that `new` would refuse. -/
structure JournalEnvelope where
  previous : JournalAnchor
  current : JournalAnchor
  payload : List Byte
  contiguous : previous.sequence.toNat + 1 = current.sequence.toNat
  nonempty : payload ≠ []
  fits : payload.length < 2 ^ 32
deriving DecidableEq

inductive JournalEnvelopeError
  | nonContiguousSequence (previous current : UInt64)
  | emptyPayload
  | payloadTooLarge (len : ℕ)
deriving DecidableEq

/-- `JournalEnvelope::new`. -/
def JournalEnvelope.new (previous current : JournalAnchor) (payload : List Byte) :
    Except JournalEnvelopeError JournalEnvelope :=
  if hcontiguous : previous.sequence.toNat + 1 = current.sequence.toNat then
    if hnonempty : payload ≠ [] then
      if hfits : payload.length < 2 ^ 32 then
        .ok ⟨previous, current, payload, hcontiguous, hnonempty, hfits⟩
      else .error (.payloadTooLarge payload.length)
    else .error .emptyPayload
  else .error (.nonContiguousSequence previous.sequence current.sequence)

lemma JournalEnvelope.new_self (e : JournalEnvelope) :
    JournalEnvelope.new e.previous e.current e.payload = .ok e := by
  rw [JournalEnvelope.new, dif_pos e.contiguous, dif_pos e.nonempty, dif_pos e.fits]

/-! ## Operations -/

/-- An operation on one tree. -/
inductive PrimitiveOp
  | insert (treeId : UInt64) (key value : List Byte)
  | erase (treeId : UInt64) (key : List Byte)
  | renameObject (treeId : UInt64) (srcKey dstKey : List Byte) (force : Bool)
deriving DecidableEq

/-- What a record says.  Batches do not nest: the encoder has no push for a batch and the
decoder refuses the tag. -/
inductive WalOp
  | primitive (op : PrimitiveOp)
  | batch (ops : List PrimitiveOp)
  | dbBatchWithEnvelope (envelope : JournalEnvelope) (ops : List PrimitiveOp)
deriving DecidableEq

/-- Why bytes are not a WAL: the contexts of `Error::ReplaySanityFailed`. -/
inductive SanityContext
  | recordHeaderTruncated
  | recordMagicMismatch
  | recordBodyTruncated
  | recordCrcMismatch
  | trailingBytes
  | unknownTag
  | nestedBatch
  | emptyInsertRun
  | insertRunExceeds
  | emptyInsertPrefixRun
  | insertPrefixRunExceeds
  | bodyTruncated
  | envelopeVersion
  | envelopeSequence
  | envelopeEmpty
  | envelopeTooLarge
  | fileHeaderTruncated
  | fileMagicMismatch
  | fileVersion
  | fileHeaderSize
  | anchorSlotsCorrupt
  | anchorGenerationsConflict
  | walTooShort
  | attachedNeedsFormat4
  | ordinaryInAttached
  | recordExceedsLimit
  | chainBroken
  | checkpointConflict
  | suffixGap
deriving DecidableEq

/-- The text of an error, by which `is_torn_tail` tells it from others. -/
def SanityContext.text : SanityContext → String
  | recordHeaderTruncated => "record header truncated"
  | recordMagicMismatch => "record magic mismatch"
  | recordBodyTruncated => "record body truncated"
  | recordCrcMismatch => "record CRC mismatch"
  | trailingBytes => "trailing bytes after variant body"
  | unknownTag => "unknown WalOp variant tag"
  | nestedBatch => "nested Batch is rejected"
  | emptyInsertRun => "empty BatchInsertRun is rejected"
  | insertRunExceeds => "BatchInsertRun exceeds batch inner count"
  | emptyInsertPrefixRun => "empty BatchInsertPrefixRun is rejected"
  | insertPrefixRunExceeds => "BatchInsertPrefixRun exceeds batch inner count"
  | bodyTruncated => "body truncated"
  | envelopeVersion => "journal envelope wire version unsupported"
  | envelopeSequence => "journal envelope sequence is not contiguous"
  | envelopeEmpty => "journal envelope payload is empty"
  | envelopeTooLarge => "journal envelope payload is too large"
  | fileHeaderTruncated => "WAL file header truncated"
  | fileMagicMismatch => "WAL file magic mismatch"
  | fileVersion => "WAL file format version unsupported"
  | fileHeaderSize => "WAL format-4 header size mismatch"
  | anchorSlotsCorrupt => "WAL checkpoint anchor slots corrupt"
  | anchorGenerationsConflict => "WAL checkpoint anchor generations conflict"
  | walTooShort => "WAL too short — missing file header"
  | attachedNeedsFormat4 => "attached batch requires WAL format version 4"
  | ordinaryInAttached => "initialized attached WAL contains an ordinary record"
  | recordExceedsLimit => "record exceeds journal size limit"
  | chainBroken => "attached journal records do not form a contiguous chain"
  | checkpointConflict => "attached journal record conflicts with checkpoint anchor"
  | suffixGap => "attached journal suffix does not continue checkpoint anchor"

/-! ## Encoding -/

/-- `RECORD_MAGIC`. -/
def recordMagic : ℕ := 0x52434552

/-- `RECORD_HEADER_SIZE`. -/
def recordHeaderSize : ℕ := 17

/-- `RECORD_FOOTER_SIZE`. -/
def recordFooterSize : ℕ := 4

def tyInsert : Byte := 0

def tyErase : Byte := 1

def tyRenameObject : Byte := 5

def tyBatch : Byte := 10

def tyBatchInsertRun : Byte := 11

def tyBatchInsertPrefixRun : Byte := 12

def tyDbBatchWithEnvelope : Byte := 13

/-- `JOURNAL_ENVELOPE_WIRE_VERSION`. -/
def journalEnvelopeWireVersion : Byte := 1

/-- `write_bytes`.  A string whose length does not fit makes the body too long as well, so the
panic is left to `writeRecord`. -/
def writeBytes (b : List Byte) : List Byte := sized 4 b

def insertBody (treeId : UInt64) (key value : List Byte) : List Byte :=
  bytes 8 treeId.toNat ++ (writeBytes key ++ writeBytes value)

def eraseBody (treeId : UInt64) (key : List Byte) : List Byte :=
  bytes 8 treeId.toNat ++ writeBytes key

def renameObjectBody (treeId : UInt64) (srcKey dstKey : List Byte) (force : Bool) : List Byte :=
  bytes 8 treeId.toNat ++ (writeBytes srcKey ++ (writeBytes dstKey ++ [if force then 1 else 0]))

/-- The part of a record that the CRC covers. -/
def covered (seq : UInt64) (ty : Byte) (body : List Byte) : List Byte :=
  bytes 4 recordMagic ++ (bytes 4 body.length ++ (bytes 8 seq.toNat ++ (ty :: body)))

/-- The bytes of a record. -/
def recordBytes (crc : List Byte → UInt32) (seq : UInt64) (ty : Byte) (body : List Byte) :
    List Byte :=
  covered seq ty body ++ bytes 4 (crc (covered seq ty body)).toNat

/-- `write_record`. -/
def writeRecord (crc : List Byte → UInt32) (seq : UInt64) (ty : Byte) (body : List Byte) :
    Option (List Byte) :=
  if body.length < 2 ^ 32 then some (recordBytes crc seq ty body) else none

def encodeInsertRecord (crc : List Byte → UInt32) (seq treeId : UInt64) (key value : List Byte) :
    Option (List Byte) :=
  writeRecord crc seq tyInsert (insertBody treeId key value)

def encodeEraseRecord (crc : List Byte → UInt32) (seq treeId : UInt64) (key : List Byte) :
    Option (List Byte) :=
  writeRecord crc seq tyErase (eraseBody treeId key)

def encodeRenameObjectRecord (crc : List Byte → UInt32) (seq treeId : UInt64)
    (srcKey dstKey : List Byte) (force : Bool) : Option (List Byte) :=
  writeRecord crc seq tyRenameObject (renameObjectBody treeId srcKey dstKey force)

/-- `encode_journal_envelope`. -/
def encodeJournalEnvelope (e : JournalEnvelope) : List Byte :=
  [journalEnvelopeWireVersion] ++ (bytes 8 e.previous.sequence.toNat ++ (e.previous.digest.val ++
    (bytes 8 e.current.sequence.toNat ++ (e.current.digest.val ++ writeBytes e.payload))))

/-! ### The batch encoder -/

/-- An open batch record: what `finish` will put together. -/
structure BatchEncoder where
  seq : UInt64
  treeId : UInt64
  envelope : Option JournalEnvelope
  /-- The inner frames appended so far. -/
  frames : List Byte
  innerCount : UInt32

namespace BatchEncoder

/-- `begin` and `begin_with_envelope`. -/
def beginRecord (seq treeId : UInt64) (envelope : Option JournalEnvelope) : BatchEncoder :=
  ⟨seq, treeId, envelope, [], 0⟩

variable (e : BatchEncoder)

/-- Append a frame that stands for `count` operations. -/
def append (frame : List Byte) (count : UInt32) : BatchEncoder :=
  { e with frames := e.frames ++ frame, innerCount := e.innerCount + count }

def pushInsert (treeId : UInt64) (key value : List Byte) : BatchEncoder :=
  e.append (tyInsert :: insertBody treeId key value) 1

/-- The frame of a run of inserts of one shape. -/
def insertRunFrame (treeId : UInt64) (count keyLen valueLen : ℕ)
    (items : List (List Byte × List Byte)) : List Byte :=
  tyBatchInsertRun :: (bytes 8 treeId.toNat ++ (bytes 4 count ++ (bytes 4 keyLen ++
    (bytes 4 valueLen ++ items.flatMap (fun item => item.1 ++ item.2)))))

def pushInsertRun (treeId : UInt64) (count keyLen valueLen : ℕ)
    (items : List (List Byte × List Byte)) : Option BatchEncoder :=
  if count = 1 then
    items.head?.map (fun item => e.pushInsert treeId item.1 item.2)
  else if count < 2 ^ 32 ∧ keyLen < 2 ^ 32 ∧ valueLen < 2 ^ 32 ∧ items.length = count then
    some (e.append (insertRunFrame treeId count keyLen valueLen items) (UInt32.ofNat count))
  else none

/-- The frame of a run of inserts whose keys start with `pre`. -/
def insertPrefixRunFrame (treeId : UInt64) (pre : List Byte) (count : ℕ)
    (items : List (List Byte × List Byte)) : List Byte :=
  tyBatchInsertPrefixRun :: (bytes 8 treeId.toNat ++ (bytes 4 count ++ (writeBytes pre ++
    items.flatMap (fun item => writeBytes (item.1.drop pre.length) ++ writeBytes item.2))))

def pushInsertPrefixRun (treeId : UInt64) (pre : List Byte) (count : ℕ)
    (items : List (List Byte × List Byte)) : Option BatchEncoder :=
  if count = 1 then
    items.head?.map (fun item => e.pushInsert treeId item.1 item.2)
  else if count < 2 ^ 32 ∧ (∀ item ∈ items, pre.length ≤ item.1.length) ∧
      items.length = count then
    some (e.append (insertPrefixRunFrame treeId pre count items) (UInt32.ofNat count))
  else none

def pushErase (treeId : UInt64) (key : List Byte) : BatchEncoder :=
  e.append (tyErase :: eraseBody treeId key) 1

def pushRenameObject (treeId : UInt64) (src dst : List Byte) (force : Bool) : BatchEncoder :=
  e.append (tyRenameObject :: renameObjectBody treeId src dst force) 1

def ty : Byte := if e.envelope.isSome then tyDbBatchWithEnvelope else tyBatch

def body : List Byte :=
  bytes 8 e.treeId.toNat ++ (bytes 4 e.innerCount.toNat ++
    ((e.envelope.map encodeJournalEnvelope).getD [] ++ e.frames))

def finish (crc : List Byte → UInt32) : Option (List Byte) := writeRecord crc e.seq e.ty e.body

end BatchEncoder

/-- A call of one of the encoder's `push_` functions. -/
inductive Push
  | insert (treeId : UInt64) (key value : List Byte)
  | insertRun (treeId : UInt64) (count keyLen valueLen : ℕ) (items : List (List Byte × List Byte))
  | insertPrefixRun (treeId : UInt64) (pre : List Byte) (count : ℕ)
      (items : List (List Byte × List Byte))
  | erase (treeId : UInt64) (key : List Byte)
  | renameObject (treeId : UInt64) (src dst : List Byte) (force : Bool)
deriving DecidableEq

namespace Push

def apply (e : BatchEncoder) : Push → Option BatchEncoder
  | insert treeId key value => some (e.pushInsert treeId key value)
  | insertRun treeId count keyLen valueLen items =>
    e.pushInsertRun treeId count keyLen valueLen items
  | insertPrefixRun treeId pre count items => e.pushInsertPrefixRun treeId pre count items
  | erase treeId key => some (e.pushErase treeId key)
  | renameObject treeId src dst force => some (e.pushRenameObject treeId src dst force)

/-- The call is made as its debug assertions ask: at least one item, as many as announced, of
the announced shape. -/
def Shaped : Push → Prop
  | insertRun _ count keyLen valueLen items => 1 ≤ count ∧ items.length = count ∧
      ∀ item ∈ items, item.1.length = keyLen ∧ item.2.length = valueLen
  | insertPrefixRun _ pre count items => 1 ≤ count ∧ items.length = count ∧
      ∀ item ∈ items, pre <+: item.1
  | _ => True

instance : DecidablePred Shaped
  | insert _ _ _ | erase _ _ | renameObject _ _ _ _ => inferInstanceAs (Decidable True)
  | insertRun _ _ _ _ _ | insertPrefixRun _ _ _ _ => inferInstanceAs (Decidable (_ ∧ _))

/-- The operations a call stands for. -/
def ops : Push → List PrimitiveOp
  | insert treeId key value => [.insert treeId key value]
  | insertRun treeId _ _ _ items | insertPrefixRun treeId _ _ items =>
    items.map (fun item => .insert treeId item.1 item.2)
  | erase treeId key => [.erase treeId key]
  | renameObject treeId src dst force => [.renameObject treeId src dst force]

end Push

/-- A record as its writer describes it. -/
inductive WalRecord
  | single (seq : UInt64) (op : PrimitiveOp)
  | batch (seq treeId : UInt64) (envelope : Option JournalEnvelope) (pushes : List Push)
deriving DecidableEq

namespace WalRecord

def encode (crc : List Byte → UInt32) : WalRecord → Option (List Byte)
  | single seq (.insert treeId key value) => encodeInsertRecord crc seq treeId key value
  | single seq (.erase treeId key) => encodeEraseRecord crc seq treeId key
  | single seq (.renameObject treeId src dst force) =>
    encodeRenameObjectRecord crc seq treeId src dst force
  | batch seq treeId envelope pushes =>
    (pushes.foldlM Push.apply (BatchEncoder.beginRecord seq treeId envelope)).bind
      (fun e => e.finish crc)

def seq : WalRecord → UInt64
  | single seq _ | batch seq _ _ _ => seq

/-- The operations the writer asked for. -/
def ops : WalRecord → List PrimitiveOp
  | single _ op => [op]
  | batch _ _ _ pushes => pushes.flatMap Push.ops

/-- What the record should decode to. -/
def op : WalRecord → WalOp
  | single _ op => .primitive op
  | batch _ _ none pushes => .batch (pushes.flatMap Push.ops)
  | batch _ _ (some envelope) pushes => .dbBatchWithEnvelope envelope (pushes.flatMap Push.ops)

def Shaped : WalRecord → Prop
  | single _ _ => True
  | batch _ _ _ pushes => ∀ p ∈ pushes, p.Shaped

instance : DecidablePred Shaped
  | single _ _ => inferInstanceAs (Decidable True)
  | batch _ _ _ pushes => inferInstanceAs (Decidable (∀ p ∈ pushes, p.Shaped))

end WalRecord

/-! ## Decoding -/

/-- `take`, with its error. -/
def take (n : ℕ) : Reader SanityContext (List Byte) := ByteReader.take .bodyTruncated n

def readU8 : Reader SanityContext Byte := (fun front => front.headD 0) <$> take 1

/-- `read_u32`, as the `usize` its callers make of it. -/
def readU32 : Reader SanityContext ℕ := number .bodyTruncated 4

def readU64 : Reader SanityContext UInt64 := UInt64.ofNat <$> number .bodyTruncated 8

def readDigest : Reader SanityContext {d : List Byte // d.length = 32} := do
  let front ← take 32
  if h : front.length = 32 then pure ⟨front, h⟩ else throw .bodyTruncated

def readBytes : Reader SanityContext (List Byte) := blob .bodyTruncated 4

/-- The primitive arms of `decode_body_into`. -/
def decodePrimitive (ty : Byte) : Reader SanityContext PrimitiveOp :=
  if ty = tyInsert then do
    let treeId ← readU64
    let key ← readBytes
    let value ← readBytes
    pure (.insert treeId key value)
  else if ty = tyErase then do
    let treeId ← readU64
    let key ← readBytes
    pure (.erase treeId key)
  else if ty = tyRenameObject then do
    let treeId ← readU64
    let srcKey ← readBytes
    let dstKey ← readBytes
    let force ← readU8
    pure (.renameObject treeId srcKey dstKey (decide (force ≠ 0)))
  else throw .unknownTag

/-- The error a refused envelope is reported as. -/
def JournalEnvelopeError.context : JournalEnvelopeError → SanityContext
  | nonContiguousSequence _ _ => .envelopeSequence
  | emptyPayload => .envelopeEmpty
  | payloadTooLarge _ => .envelopeTooLarge

def decodeJournalEnvelope : Reader SanityContext JournalEnvelope := do
  let wireVersion ← readU8
  if wireVersion = journalEnvelopeWireVersion then do
    let previousSequence ← readU64
    let previousDigest ← readDigest
    let currentSequence ← readU64
    let currentDigest ← readDigest
    let payload ← readBytes
    match JournalEnvelope.new ⟨previousSequence, previousDigest⟩
        ⟨currentSequence, currentDigest⟩ payload with
    | .ok envelope => pure envelope
    | .error e => throw e.context
  else throw .envelopeVersion

/-- `decode_insert_run`: the operations with those of the run appended. -/
def decodeInsertRun (batchCount : ℕ) (ops : List PrimitiveOp) :
    Reader SanityContext (List PrimitiveOp) := do
  let treeId ← readU64
  let count ← readU32
  if count = 0 then throw .emptyInsertRun
  else if batchCount < ops.length + count then throw .insertRunExceeds
  else do
    let keyLen ← readU32
    let valueLen ← readU32
    let run ← times (do
      let key ← take keyLen
      let value ← take valueLen
      pure (key, value)) count
    pure (ops ++ run.map (fun item => .insert treeId item.1 item.2))

/-- `decode_insert_prefix_run`. -/
def decodeInsertPrefixRun (batchCount : ℕ) (ops : List PrimitiveOp) :
    Reader SanityContext (List PrimitiveOp) := do
  let treeId ← readU64
  let count ← readU32
  if count = 0 then throw .emptyInsertPrefixRun
  else if batchCount < ops.length + count then throw .insertPrefixRunExceeds
  else do
    let pre ← readBytes
    let run ← times (do
      let suffix ← readBytes
      let value ← readBytes
      pure (pre ++ suffix, value)) count
    pure (ops ++ run.map (fun item => .insert treeId item.1 item.2))

/-- One inner frame of a batch. -/
def decodeFrame (batchCount : ℕ) (ops : List PrimitiveOp) :
    Reader SanityContext (List PrimitiveOp) := do
  let innerTy ← readU8
  if innerTy = tyBatch ∨ innerTy = tyDbBatchWithEnvelope then throw .nestedBatch
  else if innerTy = tyBatchInsertRun then decodeInsertRun batchCount ops
  else if innerTy = tyBatchInsertPrefixRun then decodeInsertPrefixRun batchCount ops
  else do
    let inner ← decodePrimitive innerTy
    pure (ops ++ [inner])

/-- `while ops.len() < count`.  Every turn adds an operation, so `count` turns are enough. -/
def decodeFrames (batchCount : ℕ) :
    ℕ → List PrimitiveOp → Reader SanityContext (List PrimitiveOp)
  | 0, ops => pure ops
  | fuel + 1, ops =>
    if ops.length < batchCount then do
      let ops' ← decodeFrame batchCount ops
      decodeFrames batchCount fuel ops'
    else pure ops

/-- `decode_body_into`. -/
def decodeBodyInto (ty : Byte) : Reader SanityContext WalOp :=
  if ty = tyBatch then do
    let _ ← readU64
    let count ← readU32
    let ops ← decodeFrames count count []
    pure (.batch ops)
  else if ty = tyDbBatchWithEnvelope then do
    let _ ← readU64
    let count ← readU32
    let envelope ← decodeJournalEnvelope
    let ops ← decodeFrames count count []
    pure (.dbBatchWithEnvelope envelope ops)
  else do
    let op ← decodePrimitive ty
    pure (.primitive op)

/-- `decode_body`. -/
def decodeBody (ty : Byte) (body : List Byte) : Except SanityContext WalOp :=
  match (decodeBodyInto ty).run body with
  | .error e => .error e
  | .ok (op, []) => .ok op
  | .ok (_, _ :: _) => .error .trailingBytes

structure DecodedRecord where
  op : WalOp
  seq : UInt64
  bytesConsumed : ℕ
deriving DecidableEq

/-- The length field of a record header. -/
def bodyLenField (buf : List Byte) : ℕ := value ((buf.drop 4).take 4)

/-- `decode_record`: a record at the front of `buf`. -/
def decodeRecord (crc : List Byte → UInt32) (buf : List Byte) :
    Except SanityContext DecodedRecord :=
  if buf.length < recordHeaderSize then .error .recordHeaderTruncated
  else if value (buf.take 4) ≠ recordMagic then .error .recordMagicMismatch
  else
    let bodyLen := bodyLenField buf
    let seq := UInt64.ofNat (value ((buf.drop 8).take 8))
    let ty := buf.getD 16 0
    let total := recordHeaderSize + bodyLen + recordFooterSize
    if buf.length < total then .error .recordBodyTruncated
    else
      let bodyEnd := recordHeaderSize + bodyLen
      if (crc (buf.take bodyEnd)).toNat ≠ value ((buf.drop bodyEnd).take 4) then
        .error .recordCrcMismatch
      else
        match decodeBody ty ((buf.drop recordHeaderSize).take bodyLen) with
        | .error e => .error e
        | .ok op => .ok ⟨op, seq, total⟩

end Journal
end Holt
