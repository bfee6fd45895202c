import Holt.Checkpoint.Session
import Holt.Store.CacheCoherence

/-!
# Truncation of the log

A session drops its log when everything the log covers is on disk.  The model here has the
parties that decide this, at the grain of the source: writers inside the writer side of the
commit gate (mutation of a pinned frame, `mark_dirty`, journal submit), deferred writes and
flushes of the write delta, spillover, merge and compaction, the entries of checkpoint rounds
and manual checkpoints on their way through the buffer manager (`Holt.Store`), and the holder
of the checkpoint side, which captures dirty blobs or tests whether the log may go.

`maybe_truncate` and `maybe_truncate_journal_shared` read one counter after the other:
`dirty_count`, `flushing_count`, `orphan_staging_count`, `write_delta_count`, `needs_flush`.
Each read is a step of its own (`testDirty` … `testNeedsFlush`), so that entries of other
rounds may move in between.  No writer can, as the test holds the checkpoint side.  The first
two counters are summed over 64 shards that are locked one after the other; the sum is read in
one step here, when the last shard has been seen, and `beginTest` marks where the first sum
begins.

The store keeps what was written last in `mgr.store`; `durable` is what a crash leaves, which
catches up at `flush_inner`.  `applied` is the history of record writes on the frames, in the
order they were made.

Rounds are more liberal here than in the source: any drained entry may be given up at any
time (a manual checkpoint gives up all of its entries when it finds one of them stale), blobs
are written in any order, and the maintenance gate does not keep parties apart.  All blobs are
resident.  Snapshots take no part, and neither does `mark_for_delete`, which no path of a tree
without snapshots calls.  A write that fails part-way latches the store closed and is left
out.
-/

namespace Holt
namespace Checkpoint

open PrefixForest Holt.Tree

/-- One write of a record, with the number of its operation. -/
structure RecordWrite where
  key : Key
  record : Option Record
  seq : ℕ
deriving DecidableEq

/-- The record write of a staged operation. -/
def stagedWrite (op : DeltaOp) : RecordWrite := ⟨op.key, op.entry.record, op.entry.seq⟩

/-- Where a thread stands at the commit gate. -/
inductive Role
  | outside
  /-- On the writer side, with the writes it has not logged yet and the staged operation it
  has logged and not put into the delta. -/
  | writer (unlogged : List RecordWrite) (staging : Option DeltaOp)
  /-- On the checkpoint side, with the number of steps of the test behind it. -/
  | checkpoint (passed : ℕ)
deriving DecidableEq

/-- The thread may change frames. -/
def Role.writes : Role → Bool
  | .writer _ _ | .checkpoint 0 => true
  | _ => false

def Role.staging : Role → Option DeltaOp
  | .writer _ staging => staging
  | _ => none

def Role.unlogged : Role → List RecordWrite
  | .writer unlogged _ => unlogged
  | _ => []

def Role.onCheckpointSide : Role → Bool
  | .checkpoint _ => true
  | _ => false

/-- A store of blobs with its log, its write delta and the threads at its commit gate. -/
structure Engine (γ : Type*) where
  mgr : Store.Manager γ (Blob γ)
  path : γ → List Byte
  allocated : List γ
  roles : List Role
  pending : List DeltaOp
  flushing : List DeltaOp
  /-- The thread that flushes the delta and the operations it has not applied yet. -/
  flush : Option (ℕ × List DeltaOp)
  /-- Children folded into a parent that is not marked dirty yet. -/
  staged : List (γ × γ)
  retired : List γ
  wal : List (List RecordWrite)
  nextSeq : ℕ
  durable : Blobs γ
  needsFlush : Bool
  applied : List RecordWrite

variable {γ : Type*} [DecidableEq γ]

/-- A tree at rest with all blobs resident and `n` threads. -/
def Engine.open (blobs : Blobs γ) (path : γ → List Byte) (allocated : List γ) (n nextSeq : ℕ) :
    Engine γ where
  mgr := { Store.Manager.open blobs n with cache := fun g => (blobs g).map (fun b => ⟨b, 0⟩) }
  path := path
  allocated := allocated
  roles := List.replicate n .outside
  pending := []
  flushing := []
  flush := none
  staged := []
  retired := []
  wal := []
  nextSeq := nextSeq
  durable := blobs
  needsFlush := false
  applied := []

/-- The blob has been folded into its parent. -/
def Engine.Detached (s : Engine γ) (g : γ) : Prop := g ∈ s.retired ∨ g ∈ s.staged.map Prod.snd

instance (s : Engine γ) : DecidablePred s.Detached := fun _ => instDecidableOr

/-- The cached blobs of the tree. -/
def Engine.live (s : Engine γ) : Blobs γ := fun g =>
  if s.Detached g then none else (s.mgr.cache g).map Store.CachedBlob.image

/-- The thread is between a mutation and its `mark_dirty`. -/
def Engine.marking (s : Engine γ) (t : ℕ) : Bool :=
  match s.mgr.threads[t]? with
  | some (.mutated _) => true
  | _ => false

/-- The blob of the tree a thread has pinned and may change. -/
def Engine.target (s : Engine γ) (t : ℕ) : Option (γ × Blob γ) :=
  match s.roles[t]?, s.mgr.threads[t]? with
  | some role, some (.pinned g) =>
    if role.writes then (s.live g).map (fun blob => (g, blob)) else none
  | _, _ => none

/-- The record writes of a tree, applied to what was there. -/
def applyWrites (m : Key → Option Record) (ws : List RecordWrite) : Key → Option Record :=
  ws.foldl (fun m w => Function.update m w.key w.record) m

/-- One step. -/
inductive EngineAction (γ : Type*)
  | enterWriter (t : ℕ)
  | leaveWriter (t : ℕ)
  | enterCheckpoint (t : ℕ)
  | leaveCheckpoint (t : ℕ)
  | write (t : ℕ) (key : Key) (value : Option Value)
  | spill (t : ℕ) (p : List Byte) (c : γ)
  | merge (t : ℕ) (p : List Byte) (c : γ)
  | compact (t : ℕ)
  | markDirty (t : ℕ) (seq : ℕ)
  | applyDelta (t : ℕ)
  | skipDelta (t : ℕ)
  | submit (t : ℕ)
  | submitStaged (t : ℕ) (key : Key) (value : Option Value)
  | stage (t : ℕ)
  | beginFlush (t : ℕ)
  | finishFlush (t : ℕ)
  | abortFlush (t : ℕ)
  | drainDirty (t : ℕ) (g : γ)
  | dropRetired (t : ℕ) (g : γ)
  | readVersion (t : ℕ) (e : ℕ)
  | giveUp (e : ℕ)
  /-- A pin, or a step of a checkpoint entry outside the commit gate. -/
  | manager (a : Store.Action γ (Blob γ))
  | flushInner
  | reclaim (g : γ)
  | beginTest (t : ℕ)
  | testDirty (t : ℕ)
  | testFlushing (t : ℕ)
  | testOrphanStaging (t : ℕ)
  | testWriteDelta (t : ℕ)
  | testNeedsFlush (t : ℕ)
  | truncate (t : ℕ)

def Engine.setRole (s : Engine γ) (t : ℕ) (role : Role) : Engine γ :=
  { s with roles := s.roles.set t role }

/-! ## The commit gate -/

/-- Writers share the gate, the checkpoint side is exclusive.  A thread leaves when it has
marked and logged what it did. -/
def gateStep (s : Engine γ) : EngineAction γ → Option (Engine γ)
  | .enterWriter t =>
    if s.roles[t]? = some .outside ∧ s.roles.all (fun r => !r.onCheckpointSide) then
      some (s.setRole t (.writer [] none))
    else none
  | .leaveWriter t =>
    if s.roles[t]? = some (.writer [] none) ∧ s.marking t = false ∧
        s.flush.all (fun f => f.1 ≠ t) then
      some (s.setRole t .outside)
    else none
  | .enterCheckpoint t =>
    if s.roles[t]? = some .outside ∧ s.roles.all (fun r => r = .outside) then
      some (s.setRole t (.checkpoint 0))
    else none
  | .leaveCheckpoint t =>
    match s.roles[t]? with
    | some (.checkpoint _) =>
      if s.marking t = false ∧ s.flush.all (fun f => f.1 ≠ t) then some (s.setRole t .outside)
      else none
    | _ => none
  | _ => none

/-! ## Changes of frames -/

/-- `install_new_blob`: a new frame enters the cache dirty. -/
def install (m : Store.Manager γ (Blob γ)) (c : γ) (blob : Blob γ) (seq : ℕ) :
    Store.Manager γ (Blob γ) :=
  { m with
    cache := Function.update m.cache c (some ⟨blob, 0⟩)
    dirty := Store.mergeSeq m.dirty c seq }

local instance lawfulBEq_edge : LawfulBEq (List Byte × γ) := inferInstance

/-- Changes of pinned frames, and `mark_dirty`. -/
def frameStep (root : γ) (s : Engine γ) : EngineAction γ → Option (Engine γ)
  | .write t key value =>
    match s.target t, s.roles[t]? with
    | some (g, blob), some (.writer unlogged staging) =>
      if ownerOf s.live (searchKey key).length root (searchKey key) = some g then
        let record := value.map (fun v => (⟨v, s.nextSeq⟩ : Record))
        (Store.step s.mgr (.mutate t (blob.setRecord (searchKey key) record))).map (fun mgr =>
          { s with
            mgr := mgr
            nextSeq := s.nextSeq + 1
            applied := s.applied ++ [⟨key, record, s.nextSeq⟩]
            roles := s.roles.set t
              (.writer (unlogged ++ [⟨key, record, s.nextSeq⟩]) staging) })
      else none
    | _, _ => none
  | .spill t p c =>
    match s.target t with
    | some (g, blob) =>
      -- the parent's latch is held from before the child is installed
      if c ∉ s.allocated ∧ (s.path g).isPrefixOf p = true ∧ (s.path g).length < p.length ∧
          blob.edges.all (fun e => !e.1.isPrefixOf p) = true then
        (Store.step (install s.mgr c (blob.below p) s.nextSeq) (.mutate t (blob.spill p c))).map
          (fun mgr => { s with
            mgr := mgr
            path := Function.update s.path c p
            allocated := c :: s.allocated })
      else none
    | none => none
  | .merge t p c =>
    match s.target t, s.live c with
    | some (g, blob), some child =>
      if (p, c) ∈ blob.edges ∧ child.edges = [] then
        (Store.step s.mgr (.mutate t (blob.absorb p child))).map (fun mgr =>
          { s with mgr := mgr, staged := s.staged ++ [(g, c)] })
      else none
    | _, _ => none
  | .compact t =>
    match s.target t with
    | some (_, blob) =>
      (Store.step s.mgr (.mutate t blob)).map (fun mgr => { s with mgr := mgr })
    | none => none
  | .markDirty t seq =>
    match s.mgr.threads[t]? with
    | some (.mutated g) =>
      -- `publish_parent_orphans`
      (Store.step s.mgr (.markDirty t seq)).map (fun mgr =>
        { s with
          mgr := mgr
          staged := s.staged.filter (fun e => e.1 ≠ g)
          retired := s.retired ++ (s.staged.filter (fun e => e.1 = g)).map Prod.snd })
    | _ => none
  | .applyDelta t =>
    match s.target t, s.flush with
    | some (g, blob), some (flusher, op :: rest) =>
      if flusher = t ∧
          ownerOf s.live (searchKey op.key).length root (searchKey op.key) = some g then
        (Store.step s.mgr (.mutate t (blob.setRecord (searchKey op.key) op.entry.record))).map
          (fun mgr => { s with
            mgr := mgr
            applied := s.applied ++ [stagedWrite op]
            flush := some (t, rest) })
      else none
    | _, _ => none
  | .skipDelta t =>
    -- a staged delete of a key that is not there changes no frame
    match s.flush with
    | some (flusher, op :: rest) =>
      if flusher = t ∧ op.entry.record = none ∧ lookupBlobs s.live root op.key = none then
        some { s with applied := s.applied ++ [stagedWrite op], flush := some (t, rest) }
      else none
    | _ => none
  | _ => none

/-! ## The log and the write delta -/

/-- Journal submits, stagings, and the ends of a delta flush. -/
def logStep (s : Engine γ) : EngineAction γ → Option (Engine γ)
  | .submit t =>
    match s.roles[t]? with
    | some (.writer unlogged staging) =>
      some { s with wal := s.wal ++ [unlogged], roles := s.roles.set t (.writer [] staging) }
    | _ => none
  | .submitStaged t key value =>
    let op : DeltaOp := ⟨key, match value with
      | some v => .put v s.nextSeq
      | none => .delete s.nextSeq⟩
    -- the tree's mutation gate keeps out flushes, the endpoint lock other writes of the key
    if s.roles[t]? = some (.writer [] none) ∧ s.flush = none ∧
        s.roles.all (fun r => r.staging.all (fun d => d.key ≠ key)) then
      some { s with
        wal := s.wal ++ [[stagedWrite op]]
        nextSeq := s.nextSeq + 1
        roles := s.roles.set t (.writer [] (some op)) }
    else none
  | .stage t =>
    match s.roles[t]? with
    | some (.writer unlogged (some op)) =>
      some { s with
        pending := insertPending s.pending op
        roles := s.roles.set t (.writer unlogged none) }
    | _ => none
  | .beginFlush t =>
    match s.roles[t]? with
    | some role =>
      if role.writes ∧ s.flush = none ∧ s.roles.all (fun r => r.staging.isNone) then
        some { s with pending := [], flushing := s.pending, flush := some (t, s.pending) }
      else none
    | none => none
  | .finishFlush t =>
    if s.flush = some (t, []) then some { s with flushing := [], flush := none } else none
  | .abortFlush t =>
    match s.flush with
    | some (flusher, _) =>
      if flusher = t then
        some { s with
          pending := s.flushing.foldl insertPending s.pending
          flushing := []
          flush := none }
      else none
    | none => none
  | _ => none

/-! ## Checkpoint entries -/

/-- Steps of the buffer manager that need no gate. -/
def ungated : Store.Action γ (Blob γ) → Bool
  | .pinResident _ _ | .unpin _ | .cloneBytes _ | .beginBatch _ | .checkCurrent _
  | .writeBlob _ | .retire _ | .endBatch | .restoreDirty _ => true
  | _ => false

def isStoreWrite : Store.Action γ (Blob γ) → Bool
  | .writeBlob _ => true
  | _ => false

/-- A drained entry that has not reached the store may be given up. -/
def abandonable : Store.EntryPhase (Blob γ) → Bool
  | .drained | .versioned _ | .cloned _ _ => true
  | _ => false

/-- Captures under the checkpoint side, the entries of rounds, and the store. -/
def entryStep (s : Engine γ) : EngineAction γ → Option (Engine γ)
  | .drainDirty t g =>
    if s.roles[t]? = some (.checkpoint 0) then
      (Store.step s.mgr (.drainDirty g)).map (fun mgr => { s with mgr := mgr })
    else none
  | .dropRetired t g =>
    -- `snapshot_dirty` forgets a retired blob's dirty row when no epoch is in flight
    if s.roles[t]? = some (.checkpoint 0) ∧ g ∈ s.retired ∧
        s.allocated.all (fun h => s.mgr.flushing h = 0) then
      some { s with mgr := { s.mgr with dirty := Function.update s.mgr.dirty g none } }
    else none
  | .readVersion t e =>
    if s.roles[t]? = some (.checkpoint 0) then
      (Store.step s.mgr (.readVersion e)).map (fun mgr => { s with mgr := mgr })
    else none
  | .giveUp e =>
    match s.mgr.entries[e]? with
    | some x =>
      if abandonable x.phase then some { s with mgr := s.mgr.setEntry e x .stale } else none
    | none => none
  | .manager a =>
    if ungated a then
      (Store.step s.mgr a).map (fun mgr =>
        { s with mgr := mgr, needsFlush := s.needsFlush || isStoreWrite a })
    else none
  | .flushInner => some { s with durable := s.mgr.store, needsFlush := false }
  | .reclaim g =>
    -- the exclusive maintenance gate keeps every thread out
    if g ∈ s.retired ∧ s.roles.all (fun r => r = .outside) ∧ s.mgr.isProtected g = false ∧
        s.mgr.threads.all (fun x => !x.pins g) then
      some { s with
        mgr := { s.mgr with
          cache := Function.update s.mgr.cache g none
          store := Function.update s.mgr.store g none
          writes := Function.update s.mgr.writes g (s.mgr.writes g + 1) }
        retired := s.retired.filter (fun h => h ≠ g)
        needsFlush := true }
    else none
  | _ => none

/-! ## The test -/

/-- One step of `maybe_truncate` by a thread on the checkpoint side that has passed the steps
before it. -/
def test (s : Engine γ) (t n : ℕ) (clean : Bool) : Option (Engine γ) :=
  if s.roles[t]? = some (.checkpoint n) ∧ clean = true then
    some (s.setRole t (.checkpoint (n + 1)))
  else none

def testStep (s : Engine γ) : EngineAction γ → Option (Engine γ)
  | .beginTest t => if s.marking t = false ∧ s.flush = none then test s t 0 true else none
  | .testDirty t => test s t 1 (s.allocated.all (fun g => (s.mgr.dirty g).isNone))
  | .testFlushing t => test s t 2 (s.allocated.all (fun g => s.mgr.flushing g = 0))
  | .testOrphanStaging t => test s t 3 s.staged.isEmpty
  | .testWriteDelta t => test s t 4 (s.pending.isEmpty && s.flushing.isEmpty)
  | .testNeedsFlush t => test s t 5 (!s.needsFlush)
  | .truncate t =>
    if s.roles[t]? = some (.checkpoint 6) then
      some { s.setRole t (.checkpoint 0) with wal := [] }
    else none
  | _ => none

/-- One step of the engine of the tree at `root`. -/
def engineStep (root : γ) (s : Engine γ) (a : EngineAction γ) : Option (Engine γ) :=
  (gateStep s a).or ((frameStep root s a).or ((logStep s a).or ((entryStep s a).or
    (testStep s a))))

/-! ## The condition -/

/-- No entry goes back from flushing to dirty from when a test begins to read the dirty counter
until it has read the flushing counter. -/
def NoRestoreInTest (s : Engine γ) : EngineAction γ → Prop
  | .manager (.restoreDirty _) => ∀ r ∈ s.roles, r ≠ .checkpoint 1 ∧ r ≠ .checkpoint 2
  | _ => True

instance (s : Engine γ) : DecidablePred (NoRestoreInTest s) := fun a => by
  unfold NoRestoreInTest
  split
  · infer_instance
  · exact instDecidableTrue

end Checkpoint
end Holt
