import Holt.Lib.CrashFile
import Holt.Lib.Transition
import Holt.Store.Integrity
import Holt.Store.Manifest

/-!
# The file blob store

`FileBlobStore` writes every blob into a fresh slot of its data file, with an integrity record
at the same slot of a second file, and remembers the change of the manifest.  `flush` syncs
the data, then the integrity records, and then appends the changes to the manifest log; when
the log has grown large it also replaces the snapshot of the manifest, by a rename, and cuts
the log to nothing.  Slots that were replaced become reusable when the flush is through.

All calls hold `data_io_lock`, so one runs at a time.  A call is cut into its file operations,
and a crash may come between any two: `FileCall.reopen` loses what is not synced, as its
argument says, and opens what is left.  What has been written since a sync may come back as it
was before, page by page; an append that is not synced is cut anywhere; a rename and a
truncation that are not synced have happened or not.

An operation on the manifest files may also fail, in `failAppend`, `failSnapshot` and
`failTruncate`.  The part of an append that has reached the file stays there.

Left out are the read accelerators, which hold nothing that is needed to serve a blob, the
lock file, and vacuum.
-/

namespace Holt
namespace Store

/-- The number of slots of `PAGE_SIZE` bytes a file can hold; `ensure_data_capacity` and the
write fail beyond. -/
def maxSlots : ℕ := 2 ^ 63 / 2 ^ 19

structure PreparedBlobWrite where
  guid : Guid
  slot : ℕ
  src : Image

/-- The next file operation of a write. -/
inductive WritePoint
  | pwrite
  | records
  | publish
deriving DecidableEq

/-- The next file operation of a flush. -/
inductive FlushPoint
  | syncData
  | syncIntegrity
  | append
  | syncLog
  | rename
  | syncDir
  | truncate
  | syncTruncate
deriving DecidableEq

/-- The call that holds `data_io_lock`. -/
inductive Phase
  | idle
  | writing (point : WritePoint) (prepared : List PreparedBlobWrite)
  | flushing (point : FlushPoint)

/-- The files of a store. -/
structure Files where
  /-- `manifest.bin`. -/
  snapshot : List Byte
  /-- What a rename that is not synced has put in its place. -/
  renamed : Option (List Byte)
  /-- `manifest.log` up to the last sync, and what has been appended since. -/
  log : List Byte
  appended : List Byte
  /-- The log has been cut to nothing, which is not synced. -/
  truncated : Bool
  data : CrashFile (ℕ × Fin pageCount) (Option Page)
  integrity : CrashFile ℕ (Option (List Byte))

/-- A change of the blobs. -/
inductive BlobChange
  | write (guid : Guid) (image : Image)
  | delete (guid : Guid)

/-- What a reader of the store may expect; no code keeps it. -/
structure History where
  /-- The blobs and their slots when the last flush was through. -/
  images : Guid → Option Image
  slots : SlotMap
  /-- The changes since. -/
  changes : List BlobChange
  /-- A flush has failed since. -/
  failed : Bool
  /-- What the write in progress was called with. -/
  requested : List (Guid × Image)

structure FileStore where
  manifest : Manifest
  manifestDirty : Bool
  integrityDirty : Bool
  /-- The data has been written since its last sync. -/
  dataDirty : Bool
  phase : Phase
  files : Files
  history : History

def applyChange (images : Guid → Option Image) : BlobChange → Guid → Option Image
  | .write guid image => Function.update images guid (some image)
  | .delete guid => Function.update images guid none

def applyChanges (images : Guid → Option Image) (changes : List BlobChange) :
    Guid → Option Image := changes.foldl applyChange images

/-- The blobs that a reader of the running store may expect. -/
def History.current (h : History) : Guid → Option Image := applyChanges h.images h.changes

/-- A call returns that has made changes. -/
def FileStore.record (s : FileStore) (changes : List BlobChange) : FileStore :=
  { s with history := { s.history with changes := s.history.changes ++ changes } }

/-! ## Writes -/

/-- `prepare_blob_writes`. -/
def prepareBlobWrites (m : Manifest) (writes : List (Guid × Image)) :
    List PreparedBlobWrite × Manifest :=
  let (reserved, m') := Manifest.reserveWriteEntries writes m
  (reserved.map (fun r => ⟨r.1.1, r.2, r.1.2⟩), m')

/-- The pages that a write changes. -/
def dataCells (prepared : List PreparedBlobWrite) :
    List ((ℕ × Fin pageCount) × Option Page) :=
  prepared.flatMap fun w =>
    (List.finRange pageCount).map (fun page => ((w.slot, page), some (w.src page)))

/-- The integrity records that a write changes. -/
def recordCells (crc : List Byte → UInt32) (prepared : List PreparedBlobWrite) :
    List (ℕ × Option (List Byte)) :=
  prepared.map (fun w => (w.slot, some (encodeRecord crc w.guid w.slot w.src)))

/-- `publish_blob_writes`. -/
def publishBlobWrites (m : Manifest) (prepared : List PreparedBlobWrite) : Manifest :=
  prepared.foldl (fun m w => m.publishWriteEntry w.guid w.slot) m

def pwriteMany (s : FileStore) (prepared : List PreparedBlobWrite) : FileStore :=
  { s with
    dataDirty := true
    files := { s.files with data := s.files.data.writeAll (dataCells prepared) } }

def writeIntegrityRecords (crc : List Byte → UInt32) (s : FileStore)
    (prepared : List PreparedBlobWrite) : FileStore :=
  { s with
    integrityDirty := true
    files := { s.files with integrity := s.files.integrity.writeAll (recordCells crc prepared) } }

/-- The next operation of a write. -/
def advanceWrite (crc : List Byte → UInt32) (s : FileStore) (prepared : List PreparedBlobWrite) :
    WritePoint → FileStore
  | .pwrite => { pwriteMany s prepared with phase := .writing .records prepared }
  | .records => { writeIntegrityRecords crc s prepared with phase := .writing .publish prepared }
  | .publish =>
    { s with
      manifest := publishBlobWrites s.manifest prepared
      manifestDirty := true
      phase := .idle }

/-- An operation of a write fails after some of its blobs, and the slots are given back. -/
def failWrite (crc : List Byte → UInt32) (s : FileStore) (prepared : List PreparedBlobWrite)
    (done : ℕ) : WritePoint → Option FileStore
  | .pwrite =>
    some { pwriteMany s (prepared.take done) with
      manifest := s.manifest.releaseReservedSlots (prepared.map PreparedBlobWrite.slot)
      phase := .idle }
  | .records =>
    some { writeIntegrityRecords crc s (prepared.take done) with
      manifest := s.manifest.releaseReservedSlots (prepared.map PreparedBlobWrite.slot)
      phase := .idle }
  | .publish => none

/-- `delete_blob`. -/
def deleteBlob (s : FileStore) (guid : Guid) : FileStore :=
  if guid ∈ s.manifest.entries then
    { s with
      manifest := s.manifest.deleteEntry guid
      manifestDirty := true }
  else s

/-! ## Flush -/

/-- The frames `persist_pending_deltas` appends. -/
def frames (crc : List Byte → UInt32) (ds : List ManifestDelta) : List Byte :=
  ds.flatMap (encodeManifestDelta crc)

/-- `flush_locked` returns: what it has flushed is now what a reader may expect. -/
def returnOk (s : FileStore) : FileStore :=
  { s with
    phase := .idle
    history :=
      { s.history with
        images := s.history.current
        slots := s.manifest.entries.lookup
        changes := []
        failed := false } }

/-- `flush_locked` after `persist_pending_deltas`. -/
def finishFlush (s : FileStore) : FileStore :=
  returnOk { s with
    manifest := { s.manifest with pendingLog := [] }.publishPendingFreeSlots }

/-- The append is synced. -/
def syncAppended (s : FileStore) : FileStore :=
  { s with
    files := { s.files with log := s.files.log ++ s.files.appended, appended := [] }
    manifest := { s.manifest with logBytes := s.manifest.logBytes + s.files.appended.length } }

/-- The cut of the log is synced. -/
def syncTruncated (s : FileStore) : FileStore :=
  { s with
    files := { s.files with log := [], truncated := false }
    manifest := { s.manifest with logBytes := 0 } }

/-- The next operation of a flush. -/
def advanceFlush (crc : List Byte → UInt32) (s : FileStore) : FlushPoint → Option FileStore
  | .syncData =>
    some { s with
      files := if s.dataDirty then { s.files with data := s.files.data.sync } else s.files
      dataDirty := false
      phase := .flushing .syncIntegrity }
  | .syncIntegrity =>
    let s' := { s with
      files := if s.integrityDirty then { s.files with integrity := s.files.integrity.sync }
        else s.files
      integrityDirty := false }
    if s.manifestDirty then some { s' with manifestDirty := false, phase := .flushing .append }
    else some (returnOk s')
  | .append =>
    if s.manifest.pendingLog = [] then some (finishFlush s)
    else
      some { s with
        files := { s.files with appended := frames crc s.manifest.pendingLog }
        phase := .flushing .syncLog }
  | .syncLog =>
    if (syncAppended s).manifest.shouldCompactLog then
      some { syncAppended s with phase := .flushing .rename }
    else some (finishFlush (syncAppended s))
  | .rename =>
    if s.manifest.entries.entries.length < 2 ^ 32 then
      some { s with
        files := { s.files with
          renamed := some (encodeSnapshot s.manifest.entries s.manifest.nextSlot) }
        phase := .flushing .syncDir }
    else none
  | .syncDir =>
    some { s with
      files := { s.files with
        snapshot := s.files.renamed.getD s.files.snapshot
        renamed := none }
      phase := .flushing .truncate }
  | .truncate =>
    some { s with
      files := { s.files with truncated := true }
      phase := .flushing .syncTruncate }
  | .syncTruncate =>
    some (finishFlush (syncTruncated s))

/-- `flush_locked` returns an error of `persist_pending_deltas`. -/
def returnErr (s : FileStore) : FileStore :=
  { s with
    manifestDirty := true
    phase := .idle
    history := { s.history with failed := true } }

/-- The append, or its sync, fails when some bytes have reached the log. -/
def failAppend (crc : List Byte → UInt32) (s : FileStore) (kept : ℕ) : FileStore :=
  returnErr { s with
    files := { s.files with
      log := s.files.log ++ (frames crc s.manifest.pendingLog).take kept
      appended := [] } }

/-- `persist_snapshot` fails.  Once the file is renamed, that may have happened all the same. -/
def failSnapshot (s : FileStore) (landed : Bool) : FileStore :=
  returnErr { s with
    files := { s.files with
      snapshot := if landed then s.files.renamed.getD s.files.snapshot else s.files.snapshot
      renamed := none } }

/-- Cutting the log, or the sync of that, fails; the log may be cut all the same. -/
def failTruncate (s : FileStore) (gone : Bool) : FileStore :=
  returnErr { s with
    files := { s.files with log := if gone then [] else s.files.log, truncated := false } }

/-! ## Crash and open -/

/-- What a crash leaves of the operations that are not synced. -/
structure Survival where
  /-- How many bytes of an append are left. -/
  kept : ℕ
  renamed : Bool
  truncated : Bool
  /-- How many of its newest values a page or a record loses. -/
  data : ℕ × Fin pageCount → ℕ
  integrity : ℕ → ℕ

def Files.crash (f : Files) (c : Survival) : Files where
  snapshot := if c.renamed then f.renamed.getD f.snapshot else f.snapshot
  renamed := none
  log := if f.truncated && c.truncated then [] else f.log ++ f.appended.take c.kept
  appended := []
  truncated := false
  data := f.data.crash c.data
  integrity := f.integrity.crash c.integrity

/-- `read_blob`. -/
def readBlob (crc : List Byte → UInt32) (f : Files) (m : Manifest) (guid : Guid) :
    Except ReadError Image :=
  match m.entries.lookup guid with
  | none => .error .notFound
  | some slot =>
    match f.integrity.now slot with
    | none => .error .missingRecord
    | some record => readFrame crc record guid slot (fun page => f.data.now (slot, page))

/-- The blobs that a manifest serves. -/
def served (crc : List Byte → UInt32) (f : Files) (m : Manifest) (guid : Guid) : Option Image :=
  match readBlob crc f m guid with
  | .ok image => some image
  | .error _ => none

/-- `FileBlobStore::open`; the log is cut to its valid part. -/
def openStore (crc : List Byte → UInt32) (f : Files) : Except ManifestError FileStore :=
  match load crc f.snapshot f.log with
  | .error e => .error e
  | .ok m => .ok
    { manifest := m
      manifestDirty := false
      integrityDirty := false
      dataDirty := false
      phase := .idle
      files := { f with log := f.log.take m.logBytes }
      history := ⟨served crc f m, m.entries.lookup, [], false, []⟩ }

/-! ## The calls -/

inductive FileCall
  /-- `write_blob` and `write_blobs`. -/
  | write (writes : List (Guid × Image))
  | delete (guid : Guid)
  | flush
  /-- The running call goes on. -/
  | advance
  | failWrite (done : ℕ)
  | failAppend (kept : ℕ)
  | failSnapshot (landed : Bool)
  | failTruncate (gone : Bool)
  /-- A crash, and the next open. -/
  | reopen (c : Survival)

/-- A store that has been created and opened. -/
def FileStore.created : FileStore where
  manifest := ⟨∅, 0, ⟨[], []⟩, [], [], 0⟩
  manifestDirty := false
  integrityDirty := false
  dataDirty := false
  phase := .idle
  files :=
    { snapshot := encodeSnapshot ∅ 0
      renamed := none
      log := []
      appended := []
      truncated := false
      data := .synced (fun _ => none)
      integrity := .synced (fun _ => none) }
  history := ⟨fun _ => none, fun _ => none, [], false, []⟩

/-- One step.  What a call is to do to the blobs is recorded when it returns: the writes it was
called with, and the deletion of a blob that there was. -/
def fileStep (crc : List Byte → UInt32) (s : FileStore) : FileCall → Option FileStore
  | .write writes =>
    match s.phase with
    | .idle =>
      if writes = [] then some s
      else
        let (prepared, m) := prepareBlobWrites s.manifest writes
        if m.nextSlot ≤ maxSlots then
          some { s with
            manifest := m
            phase := .writing .pwrite prepared
            history := { s.history with requested := writes } }
        else none
    | _ => none
  | .delete guid =>
    match s.phase with
    | .idle => some ((deleteBlob s guid).record
        (if (s.history.current guid).isSome then [.delete guid] else []))
    | _ => none
  | .flush =>
    match s.phase with
    | .idle => some { s with phase := .flushing .syncData }
    | _ => none
  | .advance =>
    match s.phase with
    | .idle => none
    | .writing .publish prepared => some ((advanceWrite crc s prepared .publish).record
        (s.history.requested.map (fun w => .write w.1 w.2)))
    | .writing point prepared => some (advanceWrite crc s prepared point)
    | .flushing point => advanceFlush crc s point
  | .failWrite done =>
    match s.phase with
    | .writing point prepared => failWrite crc s prepared done point
    | _ => none
  | .failAppend kept =>
    match s.phase with
    | .flushing .append | .flushing .syncLog => some (failAppend crc s kept)
    | _ => none
  | .failSnapshot landed =>
    match s.phase with
    | .flushing .rename | .flushing .syncDir => some (failSnapshot s landed)
    | _ => none
  | .failTruncate gone =>
    match s.phase with
    | .flushing .truncate | .flushing .syncTruncate => some (failTruncate s gone)
    | _ => none
  | .reopen c => (openStore crc (s.files.crash c)).toOption

/-- The append of the flush in progress may be in the log. -/
def FileStore.appending (s : FileStore) : Bool :=
  match s.phase with
  | .flushing .syncLog | .flushing .rename | .flushing .syncDir | .flushing .truncate
  | .flushing .syncTruncate => true
  | _ => false

end Store
end Holt
