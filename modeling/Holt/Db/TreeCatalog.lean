import Holt.Lib.Transition
import Holt.Tree.AtomicBatch

/-!
# Trees are created and dropped

A DB keeps the names of its trees in a catalog, itself a tree, with the id of the next tree to
be created.  The root blob of a tree has a guid that is a function of the tree's id.  `create_tree`
writes the empty root and flushes the store before it publishes the name and the next id in one
batch; `drop_tree` marks the name as dropping, a reachability pass deletes the root, and
`finalize_dropped_trees` takes the name out.

All this is logged, and reaches the store later and piece by piece: a checkpoint captures what is
dirty inside the commit gate, syncs the log up to there, and writes an image if it is still
current; an image that is not written after all is restored as dirty.  The log is truncated when
nothing is dirty, nothing is captured and the store owes no flush.  The test reads the dirty
counter before the others, and a checkpoint restores its images outside the commit gate.

A cell is the part of the store that one key of the catalog, or one tree, is read from.  The blobs
below the root of a tree are written one by one, and what a reader of the store would find in the
meantime is left open (`storePart`).  The store keeps its contract: what is written may be lost
until a flush.  A call that is refused changes nothing and is no step.

`old` and `given` are kept by no code: the records that truncations have dropped, and the trees
that `create_tree` has returned.
-/

namespace Holt
namespace Db
namespace Trees

open Holt.Tree

/-- `DB_CATALOG_TREE_ID`. -/
def catalogTreeId : ℕ := 0x686f6c7464620001

/-- `FIRST_USER_TREE_ID`. -/
def firstUserTreeId : ℕ := 1

/-- `next_allocated_tree_id`. -/
def nextAllocatedTreeId (treeId : ℕ) : Option ℕ :=
  let checked := fun n => if n < 2 ^ 64 then some n else none
  (checked (treeId + 1)).bind fun next =>
    if next = catalogTreeId then checked (next + 1) else some next

/-- `validate_tree_name`. -/
def validateTreeName (name : Key) : Bool := decide (name ≠ []) && decide (name.head? ≠ some 0)

inductive CatalogState
  | live
  | dropping
deriving DecidableEq

structure CatalogEntry where
  treeId : ℕ
  state : CatalogState
deriving DecidableEq

/-- What the blobs hold: the catalog, and the records of each tree that has a root. -/
structure Frames where
  next : Option ℕ
  entries : Finmap (fun _ : Key => CatalogEntry)
  roots : ℕ → Option VersionedMap

def Frames.empty : Frames := ⟨none, ∅, fun _ => none⟩

/-- The parts that reach the store apart from each other. -/
inductive Cell
  | next
  | entry (name : Key)
  | root (treeId : ℕ)
deriving DecidableEq

/-- What a cell holds. -/
inductive Image
  | next (v : Option ℕ)
  | entry (name : Key) (e : Option CatalogEntry)
  | root (treeId : ℕ) (content : Option VersionedMap)

def Image.cell : Image → Cell
  | .next _ => .next
  | .entry name _ => .entry name
  | .root treeId _ => .root treeId

def Frames.image (f : Frames) : Cell → Image
  | .next => .next f.next
  | .entry name => .entry name (f.entries.lookup name)
  | .root treeId => .root treeId (f.roots treeId)

def Frames.put (f : Frames) : Image → Frames
  | .next v => { f with next := v }
  | .entry name (some e) => { f with entries := f.entries.insert name e }
  | .entry name none => { f with entries := f.entries.erase name }
  | .root treeId content => { f with roots := Function.update f.roots treeId content }

def Frames.putAll (f : Frames) (images : List Image) : Frames := images.foldl Frames.put f

/-! ## The log -/

/-- A record of the log: the batches on the catalog by what they are for, and writes to trees. -/
inductive LogRecord
  | create (name : Key) (treeId next : ℕ)
  | drop (name : Key) (treeId : ℕ)
  | finalize (names : List Key)
  | write (ops : List (ℕ × ℕ × WalOp))

/-- What a record puts into the catalog. -/
def LogRecord.images : LogRecord → List Image
  | .create name treeId next => [.entry name (some ⟨treeId, .live⟩), .next (some next)]
  | .drop name treeId => [.entry name (some ⟨treeId, .dropping⟩)]
  | .finalize names => names.map (fun name => .entry name none)
  | .write _ => []

def LogRecord.cells : LogRecord → List Cell
  | .write ops => ops.map (fun op => .root op.1)
  | r => r.images.map Image.cell

/-- One operation on a tree; a missing root is created. -/
def Frames.writeOp (f : Frames) (op : ℕ × ℕ × WalOp) : Frames :=
  f.put (.root op.1 (some (replayOp ((f.roots op.1).getD ∅) op.2.1 op.2.2)))

/-- A record is applied, or replayed. -/
def Frames.replay (f : Frames) : LogRecord → Frames
  | .write ops => ops.foldl Frames.writeOp f
  | r => f.putAll r.images

def Frames.replayAll (f : Frames) (records : List LogRecord) : Frames :=
  records.foldl Frames.replay f

/-- Replay writes a root for every tree that a record is about and that has none. -/
def Frames.ensureRoots (f : Frames) (records : List LogRecord) : Frames :=
  { f with
    roots := fun treeId =>
      if f.roots treeId = none ∧ records.any (fun r => .root treeId ∈ r.cells) then some ∅
      else f.roots treeId }

/-! ## The machine -/

/-- An image on its way to the store, the length of the log when it was captured, and whether
the cell has been changed since. -/
structure Capture where
  image : Image
  mark : ℕ
  stale : Bool

/-- A `create_tree` that has checked the name. -/
structure Creation where
  name : Key
  treeId : ℕ
  flushed : Bool

/-- A tree that `create_tree` has returned: its id, where its record is while it is in the log,
and what was in it. -/
structure Given where
  treeId : ℕ
  position : Option ℕ
  content : Option VersionedMap

structure TreesState where
  live : Frames
  disk : Frames
  /-- Writes since the last flush of the store. -/
  pending : List Image
  old : List LogRecord
  wal : List LogRecord
  synced : ℕ
  dirty : List Cell
  captured : List Capture
  /-- A creation holds the maintenance gate exclusively. -/
  creating : Option Creation
  /-- A truncation test holds the commit gate. -/
  testing : Bool
  /-- It has counted the dirty cells. -/
  counted : Bool
  failedClosed : Bool
  given : List Given

/-- A fresh DB. -/
def TreesState.fresh : TreesState where
  live := Frames.empty
  disk := Frames.empty
  pending := []
  old := []
  wal := []
  synced := 0
  dirty := []
  captured := []
  creating := none
  testing := false
  counted := false
  failedClosed := false
  given := []

/-- A call may enter its gates, and the store is not latched. -/
def TreesState.quiet (s : TreesState) : Bool :=
  s.creating.isNone && !s.testing && !s.failedClosed

/-- Captures of a cell are no longer current. -/
def outdate (cells : List Cell) (captured : List Capture) : List Capture :=
  captured.map (fun c => if c.image.cell ∈ cells then { c with stale := true } else c)

/-- A record is applied and logged. -/
def TreesState.commit (s : TreesState) (r : LogRecord) : TreesState :=
  { s with
    live := s.live.replay r
    wal := s.wal ++ [r]
    dirty := r.cells ++ s.dirty
    captured := outdate r.cells s.captured }

/-- A blob is written to the store or deleted from it, not through a checkpoint. -/
def TreesState.submit (s : TreesState) (image : Image) : TreesState :=
  { s with
    live := s.live.put image
    pending := s.pending ++ [image]
    dirty := s.dirty.filter (fun c => c ≠ image.cell)
    captured := outdate [image.cell] s.captured }

/-- The trees of a write, by the names they are open under. -/
def resolve (entries : Finmap (fun _ : Key => CatalogEntry)) (ops : List (Key × ℕ × WalOp)) :
    Option (List (ℕ × ℕ × WalOp)) :=
  ops.mapM fun op => match entries.lookup op.1 with
    | some ⟨treeId, .live⟩ => some (treeId, op.2)
    | _ => none

/-- The writes that survive a crash. -/
def kept (pending : List Image) (keep : List Bool) : List Image :=
  ((pending.zip keep).filter Prod.snd).map Prod.fst

inductive TreesAction
  | create (name : Key)
  | createFlush
  | createPublish
  /-- The creation returns an error. -/
  | createFail
  | write (ops : List (Key × ℕ × WalOp))
  | drop (name : Key)
  /-- A reachability pass deletes a root. -/
  | sweep (treeId : ℕ)
  | finalize (names : List Key)
  /-- An operation fails part-way, and the store is latched closed. -/
  | failClosed
  | sync (n : ℕ)
  | capture (cells : List Cell)
  | store (i : ℕ)
  /-- Some blobs of a captured tree are written. -/
  | storePart (i : ℕ) (content : VersionedMap)
  | giveUp (i : ℕ)
  | flush
  | beginTest
  | testDirty
  | endTest
  | truncate
  /-- A crash and the reopen. -/
  | crash (n : ℕ) (keep : List Bool)

/-- `DB::create_tree`, `drop_tree`, `finalize_dropped_trees`, the sweep and writes. -/
def callStep (s : TreesState) : TreesAction → Option TreesState
  | .create name =>
    let treeId := s.live.next.getD firstUserTreeId
    if s.quiet ∧ validateTreeName name ∧ s.live.entries.lookup name = none ∧ treeId ≠ 0 ∧
        treeId ≠ catalogTreeId then
      let s' := if s.live.roots treeId = none then s.submit (.root treeId (some ∅)) else s
      some { s' with creating := some ⟨name, treeId, false⟩ }
    else none
  | .createFlush =>
    s.creating.map fun c =>
      { s with
        disk := s.disk.putAll s.pending
        pending := []
        creating := some { c with flushed := true } }
  | .createPublish =>
    match s.creating with
    | some ⟨name, treeId, true⟩ =>
      (nextAllocatedTreeId treeId).map fun next =>
        let s' := s.commit (.create name treeId next)
        { s' with
          creating := none
          given := s.given ++
            [⟨treeId, some (s.old.length + s.wal.length), s'.live.roots treeId⟩] }
    | _ => none
  | .createFail => if s.creating.isSome then some { s with creating := none } else none
  | .write ops =>
    if s.quiet then (resolve s.live.entries ops).map fun ops => s.commit (.write ops) else none
  | .drop name =>
    match s.live.entries.lookup name with
    | some ⟨treeId, .live⟩ => if s.quiet then some (s.commit (.drop name treeId)) else none
    | _ => none
  | .sweep treeId =>
    if s.quiet ∧ ∀ name ∈ s.live.entries.keys, s.live.entries.lookup name ≠ some ⟨treeId, .live⟩
    then some (s.submit (.root treeId none))
    else none
  | .finalize names =>
    let stored := s.disk.putAll s.pending
    if s.quiet ∧ names ≠ [] ∧ ∀ name ∈ names, (s.live.entries.lookup name).any (fun e =>
        e.state == .dropping && (stored.roots e.treeId).isNone) then
      some (s.commit (.finalize names))
    else none
  | .failClosed => some { s with failedClosed := true, creating := none }
  | _ => none

/-- The journal worker, checkpoints and truncations. -/
def checkpointStep (s : TreesState) : TreesAction → Option TreesState
  | .sync n => if s.synced ≤ n ∧ n ≤ s.wal.length then some { s with synced := n } else none
  | .capture cells =>
    if s.quiet ∧ ∀ c ∈ cells, c ∈ s.dirty then
      some { s with
        dirty := s.dirty.filter (fun c => c ∉ cells)
        captured := s.captured ++ cells.map fun c => ⟨s.live.image c, s.wal.length, false⟩ }
    else none
  | .store i =>
    match s.captured[i]? with
    | some ⟨image, mark, false⟩ =>
      if mark ≤ s.synced then
        some { s with pending := s.pending ++ [image], captured := s.captured.eraseIdx i }
      else none
    | _ => none
  | .storePart i content =>
    match s.captured[i]? with
    | some ⟨.root treeId _, mark, false⟩ =>
      if mark ≤ s.synced then
        some { s with pending := s.pending ++ [.root treeId (some content)] }
      else none
    | _ => none
  | .giveUp i =>
    s.captured[i]?.map fun c =>
      { s with dirty := c.image.cell :: s.dirty, captured := s.captured.eraseIdx i }
  | .flush => some { s with disk := s.disk.putAll s.pending, pending := [] }
  | .beginTest => if s.quiet then some { s with testing := true, counted := false } else none
  -- the count goes shard by shard, and ends here
  | .testDirty => if s.testing ∧ s.dirty = [] then some { s with counted := true } else none
  | .endTest => if s.testing then some { s with testing := false, counted := false } else none
  | .truncate =>
    if s.counted ∧ s.captured.isEmpty ∧ s.pending.isEmpty then
      some { s with
        old := s.old ++ s.wal
        wal := []
        synced := 0
        testing := false
        counted := false }
    else none
  | _ => none

/-- A crash, and `DB::open` on what it leaves. -/
def reopen (s : TreesState) (n : ℕ) (keep : List Bool) : Option TreesState :=
  let records := s.wal.take n
  let disk := (s.disk.putAll (kept s.pending keep)).ensureRoots records
  let live := disk.replayAll records
  -- `restore_epoch_high_water` wants the root of every live tree
  if (s.synced ≤ n ∧ n ≤ s.wal.length) ∧ ∀ name ∈ live.entries.keys,
      (live.entries.lookup name).all (fun e => e.state == .dropping ||
        (live.roots e.treeId).isSome) then
    some {
      live := live
      disk := disk
      pending := []
      old := s.old
      wal := records
      synced := n
      dirty := records.flatMap LogRecord.cells
      captured := []
      creating := none
      testing := false
      counted := false
      failedClosed := false
      given := s.given.map fun g =>
        { g with position := g.position.filter (fun p => p < s.old.length + n) } }
  else none

def treesStep (s : TreesState) : TreesAction → Option TreesState
  | .crash n keep => reopen s n keep
  | a => (callStep s a).or (checkpointStep s a)

/-- No image is restored from when a truncation test takes the commit gate, which is before it
begins to count the dirty cells, until it ends. -/
def restoresOutsideTests (s : TreesState) : TreesAction → Bool
  | .giveUp _ => !s.testing
  | _ => true

/-- No crash loses the record of a creation that has returned. -/
def keepsCreations (s : TreesState) : TreesAction → Bool
  | .crash n _ => s.given.all fun g => g.position.all fun p => decide (p < s.old.length + n)
  | _ => true

end Trees
end Db
end Holt
