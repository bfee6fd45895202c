import Holt.Lib.Table
import Holt.Lib.Transition

/-!
# The buffer manager's cache

`store/buffer_manager` keeps 512 KB frames in a cache in front of a blob store.  The model
has the parties that move frames between the two, each cut into the atomic steps of the
source: pins (`pin_with_access`: resident check, `store.read_blob`, insert-if-absent),
writers (mutation under the write latch, which bumps the entry's content version, then
`mark_dirty`), checkpoint entries (`snapshot_dirty`, `snapshot_dirty_versions`,
`snapshot_bytes_if_version`, and `write_through_batch` with its currency check, store write
and `retire_write_through`), and cold eviction (`try_evict_cold`).

The model is generic in the GUIDs `γ` and the frame images `β`.  `write_through_batch` runs
under the `checkpoint_io` mutex; `checkpointIo` holds the entries of the batch that owns it.
An entry's `versions` start at `0` when a frame is inserted, as a fresh `CachedBlob` does.
`writes` counts store writes per blob and is used only to say when a loaded image is old.

Left out: delete fences, retired orphans and physical GC (no step here deletes a blob), route
residency and admission (they only forbid evictions), the dirty hint (a cache of the dirty map
that `mark_dirty_with_hint` re-checks against it), read indexes and telemetry.  A frame image is
opaque here, so inserts that a frame refuses, such as those of keys with NUL bytes that collide
with stored ones, are not seen.
-/

namespace Holt
namespace Store

/-- `STRUCTURAL_SEQ`: the sequence number of logically neutral rewrites. -/
def structuralSeq : ℕ := 2 ^ 64 - 1

/-- A resident frame and its content version. -/
structure CachedBlob (β : Type*) where
  image : β
  version : ℕ
deriving DecidableEq

/-- A thread that pins frames and mutates them. -/
inductive Thread (γ β : Type*)
  | idle
  /-- `pin_with_access` found no resident entry. -/
  | missed (guid : γ)
  /-- `store.read_blob` returned `image` when the blob had been written `stamp` times. -/
  | loaded (guid : γ) (image : β) (stamp : ℕ)
  | pinned (guid : γ)
  /-- The write guard is released and `mark_dirty` not yet called. -/
  | mutated (guid : γ)
deriving DecidableEq

/-- Where a drained dirty entry stands in its checkpoint epoch. -/
inductive EntryPhase (β : Type*)
  | drained
  | versioned (version : ℕ)
  | cloned (version : ℕ) (bytes : β)
  /-- `write_snapshot_is_current` returned `true`. -/
  | checked (version : ℕ) (bytes : β)
  | stored (version : ℕ) (bytes : β)
  /-- To be handed to `restore_dirty`. -/
  | stale
  | retired
deriving DecidableEq

/-- One drained dirty entry of a checkpoint epoch. -/
structure Entry (γ β : Type*) where
  guid : γ
  expectedSeq : ℕ
  phase : EntryPhase β
deriving DecidableEq

/-- Cache, store, bookkeeping and the parties. -/
structure Manager (γ β : Type*) where
  cache : γ → Option (CachedBlob β)
  store : γ → Option β
  writes : γ → ℕ
  dirty : γ → Option ℕ
  flushing : γ → ℕ
  threads : List (Thread γ β)
  entries : List (Entry γ β)
  checkpointIo : Option (List ℕ)

/-- An empty cache over a store, with `n` threads. -/
def Manager.open {γ β : Type*} (store : γ → Option β) (n : ℕ) : Manager γ β where
  cache := fun _ => none
  store := store
  writes := fun _ => 0
  dirty := fun _ => none
  flushing := fun _ => 0
  threads := List.replicate n .idle
  entries := []
  checkpointIo := none

/-- One atomic step, of thread `t` or of checkpoint entry `e`. -/
inductive Action (γ β : Type*)
  | pinResident (t : ℕ) (guid : γ)
  | pinMiss (t : ℕ) (guid : γ)
  | readBlob (t : ℕ)
  | insertIfAbsent (t : ℕ)
  | mutate (t : ℕ) (image : β)
  | markDirty (t : ℕ) (seq : ℕ)
  | unpin (t : ℕ)
  | evictCold (guid : γ)
  | drainDirty (guid : γ)
  | readVersion (e : ℕ)
  | cloneBytes (e : ℕ)
  | beginBatch (es : List ℕ)
  | checkCurrent (e : ℕ)
  | writeBlob (e : ℕ)
  | retire (e : ℕ)
  | endBatch
  | restoreDirty (e : ℕ)
deriving DecidableEq

section Steps

variable {γ β : Type*} [DecidableEq γ]

/-- The thread holds an `Arc` of the cache entry. -/
def Thread.pins (guid : γ) : Thread γ β → Bool
  | .pinned g | .mutated g => g == guid
  | _ => false

/-- The thread is between its mutation of `guid` and its `mark_dirty`. -/
def Thread.unmarked (guid : γ) : Thread γ β → Bool
  | .mutated g => g == guid
  | _ => false

/-- The entry still holds its flushing reference on `guid`. -/
def Entry.holds (guid : γ) (e : Entry γ β) : Bool :=
  e.guid == guid && (match e.phase with
    | .retired => false
    | _ => true)

/-- The entry has passed the currency check of the running batch. -/
def EntryPhase.active : EntryPhase β → Bool
  | .checked _ _ | .stored _ _ => true
  | _ => false

/-- `min`-merge of a sequence number into a dirty map. -/
def mergeSeq (dirty : γ → Option ℕ) (guid : γ) (seq : ℕ) : γ → Option ℕ :=
  Function.update dirty guid (some (match dirty guid with
    | some cur => min cur seq
    | none => seq))

/-- `is_protected`: a dirty or flushing frame is never evicted. -/
def Manager.isProtected (m : Manager γ β) (guid : γ) : Bool :=
  (m.dirty guid).isSome || decide (0 < m.flushing guid)

def Manager.setThread (m : Manager γ β) (t : ℕ) (x : Thread γ β) : Manager γ β :=
  { m with threads := m.threads.set t x }

def Manager.setEntry (m : Manager γ β) (e : ℕ) (x : Entry γ β) (phase : EntryPhase β) :
    Manager γ β :=
  { m with entries := m.entries.set e { x with phase := phase } }

/-- Steps of pins and writers. -/
def threadStep (m : Manager γ β) : Action γ β → Option (Manager γ β)
  | .pinResident t guid =>
    match m.threads[t]?, m.cache guid with
    | some .idle, some _ => some (m.setThread t (.pinned guid))
    | _, _ => none
  | .pinMiss t guid =>
    match m.threads[t]?, m.cache guid with
    | some .idle, none => some (m.setThread t (.missed guid))
    | _, _ => none
  | .readBlob t =>
    match m.threads[t]? with
    | some (.missed guid) =>
      (m.store guid).map (fun image => m.setThread t (.loaded guid image (m.writes guid)))
    | _ => none
  | .insertIfAbsent t =>
    match m.threads[t]? with
    | some (.loaded guid image _) =>
      -- `cache.entry(guid).or_insert_with`: a resident entry wins
      match m.cache guid with
      | some _ => some (m.setThread t (.pinned guid))
      | none => some { m.setThread t (.pinned guid) with
          cache := Function.update m.cache guid (some ⟨image, 0⟩) }
    | _ => none
  | .mutate t image =>
    match m.threads[t]? with
    | some (.pinned guid) =>
      (m.cache guid).map (fun c => { m.setThread t (.mutated guid) with
        cache := Function.update m.cache guid (some ⟨image, c.version + 1⟩) })
    | _ => none
  | .markDirty t seq =>
    match m.threads[t]? with
    | some (.mutated guid) =>
      -- no dirty entry without a cached image
      match m.cache guid with
      | some _ => some { m.setThread t (.pinned guid) with dirty := mergeSeq m.dirty guid seq }
      | none => some (m.setThread t (.pinned guid))
    | _ => none
  | .unpin t =>
    match m.threads[t]? with
    | some (.pinned _) => some (m.setThread t .idle)
    | _ => none
  | .evictCold guid =>
    -- `strong_count == 1`: only the cache slot holds the entry
    if (m.cache guid).isSome ∧ m.isProtected guid = false ∧
        m.threads.all (fun x => !x.pins guid) then
      some { m with cache := Function.update m.cache guid none }
    else none
  | _ => none

/-- Steps of checkpoint entries. -/
def checkpointStep (m : Manager γ β) : Action γ β → Option (Manager γ β)
  | .drainDirty guid =>
    (m.dirty guid).map (fun seq => { m with
      dirty := Function.update m.dirty guid none
      flushing := Function.update m.flushing guid (m.flushing guid + 1)
      entries := m.entries ++ [⟨guid, seq, .drained⟩] })
  | .readVersion e =>
    match m.entries[e]? with
    | some ⟨guid, seq, .drained⟩ =>
      (m.cache guid).map (fun c => m.setEntry e ⟨guid, seq, .drained⟩ (.versioned c.version))
    | _ => none
  | .cloneBytes e =>
    match m.entries[e]? with
    | some ⟨guid, seq, .versioned version⟩ =>
      (m.cache guid).map (fun c =>
        if c.version = version then
          m.setEntry e ⟨guid, seq, .versioned version⟩ (.cloned version c.image)
        else m.setEntry e ⟨guid, seq, .versioned version⟩ .stale)
    | _ => none
  | .beginBatch es =>
    if m.checkpointIo = none ∧ es.all (fun e => match m.entries[e]? with
        | some ⟨_, _, .cloned _ _⟩ => true
        | _ => false) then
      some { m with checkpointIo := some es }
    else none
  | .checkCurrent e =>
    match m.entries[e]? with
    | some ⟨guid, seq, .cloned version bytes⟩ =>
      if (m.checkpointIo.getD []).contains e then
        (m.cache guid).map (fun c =>
          if c.version = version then
            m.setEntry e ⟨guid, seq, .cloned version bytes⟩ (.checked version bytes)
          else m.setEntry e ⟨guid, seq, .cloned version bytes⟩ .stale)
      else none
    | _ => none
  | .writeBlob e =>
    match m.entries[e]? with
    | some ⟨guid, seq, .checked version bytes⟩ =>
      some { m.setEntry e ⟨guid, seq, .checked version bytes⟩ (.stored version bytes) with
        store := Function.update m.store guid (some bytes)
        writes := Function.update m.writes guid (m.writes guid + 1) }
    | _ => none
  | .retire e =>
    match m.entries[e]? with
    | some ⟨guid, seq, .stored version bytes⟩ =>
      (m.cache guid).map (fun c =>
        if c.version = version then
          -- a dirty entry this image covers is retired with it
          let covered := seq ≠ structuralSeq ∧ (m.dirty guid).any (fun cur => cur ≤ seq)
          { m.setEntry e ⟨guid, seq, .stored version bytes⟩ .retired with
            dirty := if covered then Function.update m.dirty guid none else m.dirty
            flushing := Function.update m.flushing guid (m.flushing guid - 1) }
        else m.setEntry e ⟨guid, seq, .stored version bytes⟩ .stale)
    | _ => none
  | .endBatch =>
    if (m.checkpointIo.getD []).all (fun e => match m.entries[e]? with
        | some x => !x.phase.active
        | none => true) then
      some { m with checkpointIo := none }
    else none
  | .restoreDirty e =>
    match m.entries[e]? with
    | some ⟨guid, seq, .stale⟩ =>
      some { m.setEntry e ⟨guid, seq, .stale⟩ .retired with
        flushing := Function.update m.flushing guid (m.flushing guid - 1)
        dirty := mergeSeq m.dirty guid seq }
    | _ => none
  | _ => none

/-- One step of the buffer manager. -/
def step (m : Manager γ β) (a : Action γ β) : Option (Manager γ β) :=
  (threadStep m a).or (checkpointStep m a)

/-! ## Coherence -/

/-- Whenever the cached image of a blob differs from the store's image, the blob is dirty or
flushing, or a writer is between its mutation and its `mark_dirty`. -/
def Coherent (m : Manager γ β) : Prop :=
  ∀ guid c, m.cache guid = some c → m.store guid ≠ some c.image →
    m.dirty guid ≠ none ∨ 0 < m.flushing guid ∨ ∃ x ∈ m.threads, x.unmarked guid = true

/-- A step publishes only the store's image of a blob that was not resident. -/
def PublishesCurrent (m m' : Manager γ β) : Prop :=
  ∀ guid c, m.cache guid = none → m'.cache guid = some c → m'.store guid = some c.image

/-- The pin that inserts finds its blob resident, or its blob has not been written since the
pin read it. -/
def NoWriteSinceRead (m : Manager γ β) : Action γ β → Prop
  | .insertIfAbsent t =>
    match m.threads[t]? with
    | some (.loaded guid _ stamp) => (m.cache guid).isSome = true ∨ stamp = m.writes guid
    | _ => True
  | _ => True

instance (m : Manager γ β) : DecidablePred (NoWriteSinceRead m) := fun a => by
  unfold NoWriteSinceRead
  split
  · split <;> infer_instance
  · exact instDecidableTrue

end Steps

end Store
end Holt
