import Holt.Lib.PrefixForest
import Holt.Lib.Transition
import Holt.Tree.Writes

/-!
# One session of a persistent tree

A tree is a forest of blobs: each blob keeps the records of the keys that a descent brings to
it and edges (`BlobNode`s) to child blobs.  A session applies acknowledged writes to the
cached blobs and logs them; spillover moves a part of a blob to a new child, a merge folds a
child back, compaction rewrites a blob with the same records.  A checkpoint round captures
dirty blobs at a moment when no write is in progress and hands them to the I/O worker, which
writes them in waves (`write_entries_in_dependency_order`): a blob is written only when all
its children are durable, and every wave ends with a flush of the store.

`disk` holds, for each blob, the images a crash may recover: by the `BlobStore` contract a
write that no flush has followed may come back as the replacement or as an image before it, and
the first image of a new blob not at all.  `reopen` is `replay_wal` on the recovered blobs.

A write happens in one step, as the commit gate keeps captures out of it, and the frames take
every record: the ways a frame can refuse one, a key that extends another key by a NUL byte
and a frame that cannot be split, are properties of frames.  Whether a captured image is still
current when it is written only decides what stays dirty; here a captured image may be written
or given up at any time.  The truncation of the log and the physical deletion of merged blobs
are not part of a session.
-/

namespace Holt
namespace Checkpoint

open PrefixForest Holt.Tree

/-- The bytes a descent follows: the key and its terminator. -/
def searchKey (key : Key) : List Byte := key ++ [0]

/-- A blob as the records and edges of its frame. -/
abbrev Blob (γ : Type*) := Page Byte γ Record

abbrev Blobs (γ : Type*) := Pages Byte γ Record

variable {γ : Type*} [DecidableEq γ]

/-- A captured image on its way to the store. -/
abbrev Captured (γ : Type*) := γ × Blob γ

structure Session (γ : Type*) where
  live : Blobs γ
  /-- The bytes consumed before a descent enters a blob; frames do not store them. -/
  path : γ → List Byte
  allocated : List γ
  dirty : List γ
  /-- Captured epochs the I/O worker has not started. -/
  epochs : List (List (Captured γ))
  /-- Entries of the running batch that are in no wave yet. -/
  entries : List (Captured γ)
  wave : List (Captured γ)
  durableThisBatch : List γ
  /-- Blobs written since the store's last flush. -/
  unflushed : List γ
  /-- Those of them that no flush has made durable before. -/
  fresh : List γ
  /-- The images a crash may recover, the newest first. -/
  disk : γ → List (Blob γ)
  pending : List DeltaOp
  wal : List WalRecord
  nextSeq : ℕ

/-- A tree at rest: every blob is durable, the log is empty. -/
def Session.open (blobs : Blobs γ) (path : γ → List Byte) (allocated : List γ) (nextSeq : ℕ) :
    Session γ where
  live := blobs
  path := path
  allocated := allocated
  dirty := []
  epochs := []
  entries := []
  wave := []
  durableThisBatch := []
  unflushed := []
  fresh := []
  disk g := (blobs g).toList
  pending := []
  wal := []
  nextSeq := nextSeq

/-! ## Writes -/

/-- The operations of a log with their numbers: `replay_bytes` unpacks batches. -/
def walOps (wal : List WalRecord) : List (ℕ × WalOp) :=
  wal.flatMap (fun record => match record with
    | .single seq op => [(seq, op)]
    | .batch base ops => (ops.zipIdx base).map Prod.swap)

/-- The record of a key in the blobs. -/
def lookupBlobs (blobs : Blobs γ) (root : γ) (key : Key) : Option Record :=
  contents blobs root (searchKey key)

/-- Insert or erase under a key in the blob that owns it, which becomes dirty. -/
def Session.writeRecord (s : Session γ) (root : γ) (key : Key) (r : Option Record) : Session γ :=
  { s with
    live := PrefixForest.write s.live root (searchKey key) r
    dirty := match ownerOf s.live (searchKey key).length root (searchKey key) with
      | some g => if g ∈ s.dirty then s.dirty else g :: s.dirty
      | none => s.dirty }

/-- `flush_write_deltas`. -/
def Session.flushWriteDelta (s : Session γ) (root : γ) : Session γ :=
  { s.pending.foldl (fun s op => s.writeRecord root op.key op.entry.record) s with pending := [] }

/-- Apply one operation of a direct write to the blobs; `none` if the call is refused. -/
def Session.applyOp (s : Session γ) (root : γ) (seq : ℕ) : WalOp → Option (Session γ)
  | .insert key value => some (s.writeRecord root key (some ⟨value, seq⟩))
  | .erase key => some (s.writeRecord root key none)
  | .rename src dst force =>
    match lookupBlobs s.live root src with
    | none => none
    | some record =>
      if src = dst then some s
      else if force = false ∧ (lookupBlobs s.live root dst).isSome then none
      else some ((s.writeRecord root src none).writeRecord root dst (some ⟨record.value, seq⟩))

def Session.applyOps (s : Session γ) (root : γ) : List (ℕ × WalOp) → Option (Session γ)
  | [] => some s
  | (seq, op) :: rest => (s.applyOp root seq op).bind (fun s' => s'.applyOps root rest)

/-! ## Checkpoint rounds -/

/-- `has_unflushed_blob`: the blob is dirty, or captured and not yet retired. -/
def Session.hasUnflushed (s : Session γ) (g : γ) : Bool :=
  g ∈ s.dirty || (s.epochs.flatten ++ s.entries ++ s.wave).any (fun e => e.1 == g)

/-- `children_ready`: every child was written and flushed in this batch, or is clean and
durable. -/
def Session.childrenReady (s : Session γ) (blob : Blob γ) : Bool :=
  blob.edges.all (fun e => e.2 ∈ s.durableThisBatch ||
    (!s.hasUnflushed e.2 && !(s.disk e.2).isEmpty && s.unflushed.isEmpty))

/-- One step of a session. -/
inductive Step (γ : Type*)
  | put (key : Key) (value : Value)
  | delete (key : Key)
  | flushWriteDelta
  /-- A direct write that succeeds, by what it logs. -/
  | commit (ops : List WalOp)
  | spill (g : γ) (p : List Byte) (c : γ)
  | merge (g : γ) (p : List Byte) (c : γ)
  | compact (g : γ)
  | capture (picked : List γ)
  | startBatch
  | planWave
  | writeBlob
  | flushInner
  | giveUp
deriving DecidableEq

/-- The record of a direct write. -/
def Session.record (s : Session γ) : List WalOp → WalRecord
  | [op] => .single s.nextSeq op
  | ops => .batch s.nextSeq ops

def Session.logged (s : Session γ) (record : WalRecord) (n : ℕ) : Session γ :=
  { s with wal := s.wal ++ [record], nextSeq := s.nextSeq + n }

/-- What readers see under a key. -/
def Session.view (s : Session γ) (root : γ) (key : Key) : Option Record :=
  match lookupWriteDelta s.pending key with
  | some entry => entry.record
  | none => lookupBlobs s.live root key

/-- Writes of the session. -/
def writeStep (root : γ) (s : Session γ) : Step γ → Option (Session γ)
  | .put key value =>
    some { s.logged (.single s.nextSeq (.insert key value)) 1 with
      pending := insertPending s.pending ⟨key, .put value s.nextSeq⟩ }
  | .delete key =>
    if (s.view root key).isNone then some s
    else some { s.logged (.single s.nextSeq (.erase key)) 1 with
      pending := insertPending s.pending ⟨key, .delete s.nextSeq⟩ }
  | .flushWriteDelta => some (s.flushWriteDelta root)
  | .commit ops =>
    -- a direct write flushes the write delta before its own section
    if s.pending = [] then
      (s.applyOps root (walOps [s.record ops])).map (fun s' => s'.logged (s.record ops) ops.length)
    else none
  | _ => none

/-- Structural changes of the cached blobs. -/
def shapeStep (s : Session γ) : Step γ → Option (Session γ)
  | .spill g p c =>
    match s.live g with
    | some blob =>
      if c ∉ s.allocated ∧ (s.path g).isPrefixOf p = true ∧ (s.path g).length < p.length ∧
          blob.edges.all (fun e => !e.1.isPrefixOf p) = true then
        some { s with
          live := PrefixForest.spill s.live g blob p c
          path := Function.update s.path c p
          allocated := c :: s.allocated
          dirty := g :: c :: s.dirty }
      else none
    | none => none
  | .merge g p c =>
    match s.live g, s.live c with
    | some blob, some child =>
      -- only a child without children of its own is folded
      if (p, c) ∈ blob.edges ∧ child.edges = [] then
        some { s with
          live := PrefixForest.absorb s.live g blob p child
          dirty := g :: s.dirty }
      else none
    | _, _ => none
  | .compact g =>
    if (s.live g).isSome then some { s with dirty := g :: s.dirty } else none
  | _ => none

/-- The checkpoint round and the I/O worker. -/
def roundStep (s : Session γ) : Step γ → Option (Session γ)
  | .capture picked =>
    -- the capture flushes the write delta first; a blob written after the capture is not cloned
    -- and stays dirty
    if s.pending = [] ∧ picked.all (fun g => g ∈ s.dirty) = true then
      some { s with
        dirty := s.dirty.filter (fun g => g ∉ picked)
        epochs := s.epochs ++ [picked.filterMap (fun g => (s.live g).map (fun blob => (g, blob)))] }
    else none
  | .startBatch =>
    match s.epochs with
    | epoch :: rest =>
      if s.entries = [] ∧ s.wave = [] ∧ s.unflushed = [] then
        some { s with epochs := rest, entries := epoch, durableThisBatch := [] }
      else none
    | [] => none
  | .planWave =>
    if s.wave = [] ∧ s.unflushed = [] then
      some { s with
        wave := s.entries.filter (fun e => s.childrenReady e.2)
        entries := s.entries.filter (fun e => !s.childrenReady e.2) }
    else none
  | .writeBlob =>
    match s.wave with
    | (g, blob) :: rest =>
      some { s with
        wave := rest
        disk := Function.update s.disk g (blob :: s.disk g)
        unflushed := g :: s.unflushed
        fresh := if s.disk g = [] then g :: s.fresh else s.fresh
        durableThisBatch := g :: s.durableThisBatch }
    | [] => none
  | .flushInner =>
    some { s with disk := fun g => (s.disk g).take 1, unflushed := [], fresh := [] }
  | .giveUp =>
    -- stale or deferred entries go back to the dirty map
    some { s with
      dirty := (s.entries ++ s.wave).map Prod.fst ++ s.dirty
      entries := []
      wave := [] }
  | _ => none

/-- One step of a session on the tree at `root`. -/
def step (root : γ) (s : Session γ) (a : Step γ) : Option (Session γ) :=
  (writeStep root s a).or ((shapeStep s a).or (roundStep s a))

/-! ## Crash and reopen -/

/-- The blobs a crash may leave: for each blob one of the images on its way to the disk, and
possibly none of a blob that has never been flushed. -/
def Recovers (s : Session γ) (blobs : Blobs γ) : Prop :=
  ∀ g, (blobs g = none ∧ (s.disk g = [] ∨ g ∈ s.fresh)) ∨ ∃ blob ∈ s.disk g, blobs g = some blob

/-- One operation of `replay_wal`. -/
def replayOnBlobs (root : γ) (blobs : Blobs γ) (seq : ℕ) : WalOp → Blobs γ
  | .insert key value => PrefixForest.write blobs root (searchKey key) (some ⟨value, seq⟩)
  | .erase key => PrefixForest.write blobs root (searchKey key) none
  | .rename src dst force =>
    match lookupBlobs blobs root src with
    | none => blobs
    | some record =>
      if force = false ∧ (lookupBlobs blobs root dst).isSome then blobs
      else PrefixForest.write (PrefixForest.write blobs root (searchKey src) none) root
        (searchKey dst) (some ⟨record.value, seq⟩)

/-- `Tree::open` on the recovered blobs: the whole retained log is replayed. -/
def reopen (root : γ) (blobs : Blobs γ) (wal : List WalRecord) : Blobs γ :=
  (walOps wal).foldl (fun blobs op => replayOnBlobs root blobs op.1 op.2) blobs

/-! ## What was acknowledged -/

/-- An acknowledged operation on a map from keys to values. -/
def acknowledge (m : Key → Option Value) : WalOp → (Key → Option Value)
  | .insert key value => Function.update m key (some value)
  | .erase key => Function.update m key none
  | .rename src dst _ =>
    if src = dst then m else Function.update (Function.update m src none) dst (m src)

/-- All acknowledged operations, in order. -/
def acknowledged (m : Key → Option Value) (wal : List WalRecord) : Key → Option Value :=
  (walOps wal).foldl (fun m op => acknowledge m op.2) m

/-! ## The condition -/

/-- The operation replaces the record under the key whatever it finds there. -/
def replaces (key : Key) : WalOp → Bool
  | .insert k _ | .erase k => key = k
  | .rename src dst _ => src ≠ dst ∧ (key = src ∨ key = dst)

/-- Every rename moves a key that an earlier operation of the log has written, to a key that
it overwrites by force or that an earlier operation has written too. -/
def renamesCovered (seen : List WalOp) : List WalOp → Bool
  | [] => true
  | op :: rest =>
    (match op with
      | .rename src dst force =>
        src = dst || (seen.any (replaces src) && (force || seen.any (replaces dst)))
      | _ => true) && renamesCovered (seen ++ [op]) rest

/-- The keys inserted have no NUL byte, and the renames of a direct write are covered by the
retained log. -/
def RenamesCovered (s : Session γ) : Step γ → Prop
  | .put key _ => key.NulFree
  | .commit ops => (∀ op ∈ ops, ∀ key ∈ op.inserts, key.NulFree) ∧
      renamesCovered ((walOps s.wal).map Prod.snd) ops = true
  | _ => True

instance (s : Session γ) : DecidablePred (RenamesCovered s) := fun a => by
  unfold RenamesCovered
  split
  · infer_instance
  · infer_instance
  · exact instDecidableTrue

end Checkpoint
end Holt
