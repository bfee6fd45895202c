import Holt.Tree.KeyScan

/-!
# Key scans and writers side by side

A writer takes its number, submits its record and only then stages its operation (or, for the
conditional writes, changes the tree), all under the shared side of the mutation gate and its
key's endpoint lock.  A key scan takes several steps of its own: it looks at the counter of
key-set changes and flushes, loads the epoch and asks the cache, loads the epoch again, walks
the tree, and stores the listing if the epoch is still the same.  The epoch is the sequence
counter, and a writer advances it before its change can be seen.

Each of these is one step here, and steps of any number of writers and scans interleave.  A
flush holds the batch side of the mutation gate, so it waits for the writers under way.  The
walk is one step; the submission of a conditional write, which follows its change, is part of
its acknowledgement.
-/

namespace Holt
namespace Tree

open Transition

/-- A write: `put` and `delete` are staged, the conditional writes change the tree. -/
inductive WriteOp
  | put (key : Key) (value : Value)
  | delete (key : Key)
  | insert (key : Key) (value : Value) (condition : InsertCondition)
  | erase (key : Key) (condition : EraseCondition)
deriving DecidableEq

def WriteOp.key : WriteOp → Key
  | .put key _ | .delete key | .insert key _ _ | .erase key _ => key

def WriteOp.deferred : WriteOp → Bool
  | .put _ _ | .delete _ => true
  | .insert _ _ _ | .erase _ _ => false

/-- How far a writer has come. -/
inductive WriterPhase
  | numbered
  | submitted
  | published (w : DeltaOp)
  | finished
deriving DecidableEq

structure Writer where
  op : WriteOp
  seq : ℕ
  createsKey : Bool
  phase : WriterPhase
deriving DecidableEq

/-- The writer has its number, and its change is not to be seen yet.  It holds the endpoint
lock of its key and the shared side of the mutation gate. -/
def Writer.InFlight (w : Writer) : Prop := w.phase = .numbered ∨ w.phase = .submitted

instance (w : Writer) : Decidable w.InFlight := inferInstanceAs (Decidable (_ ∨ _))

/-- How far a scan has come. -/
inductive ScanPhase
  | started
  | mustFlush
  | flushed
  | probing (epoch : ℕ)
  | missed
  | before (epoch : ℕ)
  | walked (epoch : ℕ) (entries : List KeyEntry)
  | storing (epoch : ℕ) (entries : List KeyEntry)
  | done (entries : List KeyEntry)
deriving DecidableEq

/-- A scan, with the writes that had been acknowledged when it started. -/
structure Scan where
  range : KeyRange
  acked : List DeltaOp
  phase : ScanPhase
deriving DecidableEq

/-- The tree with its writers and scans, each known by its index.  `published` lists the
changes in the order they came to be seen, `acked` those whose calls have returned. -/
structure ListSystem where
  store : KeyStore
  writers : List Writer
  scans : List Scan
  published : List DeltaOp
  acked : List DeltaOp

/-- A tree opened on a map. -/
def ListSystem.opened (m : VersionedMap) (nextSeq : ℕ) : ListSystem where
  store := KeyStore.opened m nextSeq
  writers := []
  scans := []
  published := []
  acked := []

/-- The steps of a scan. -/
inductive ScanMove
  | check
  | flush
  | loadEpoch
  | serve
  | loadBefore
  | walk
  | loadAfter
  | store
deriving DecidableEq

inductive ListAction
  | begin (op : WriteOp)
  | submit (i : ℕ)
  | publish (i : ℕ)
  | ack (i : ℕ)
  | flush
  | scan (q : KeyRange)
  | move (j : ℕ) (step : ScanMove)
deriving DecidableEq

namespace ListSystem

variable (sys : ListSystem)

/-- No writer holds the shared side of the mutation gate. -/
def GateFree : Prop := ∀ w ∈ sys.writers, ¬ w.InFlight

instance : Decidable sys.GateFree := inferInstanceAs (Decidable (∀ w ∈ sys.writers, ¬ w.InFlight))

def setWriter (i : ℕ) (w : Writer) : ListSystem := { sys with writers := sys.writers.set i w }

def setScan (j : ℕ) (scan : Scan) (phase : ScanPhase) : ListSystem :=
  { sys with scans := sys.scans.set j { scan with phase := phase } }

/-- The writer takes the next number. -/
def number (op : WriteOp) : ListSystem := { sys with
  store := { sys.store with nextSeq := sys.store.nextSeq + 1 }
  writers := sys.writers ++
    [⟨op, sys.store.nextSeq, (sys.store.getVersion op.key).isNone, .numbered⟩] }

/-- The operation of the `i`th writer is staged. -/
def stage (i : ℕ) (w : Writer) (op : StagedOp) : ListSystem := { sys with
  store := { sys.store with delta := sys.store.delta.insertPending op }
  writers := sys.writers.set i { w with phase := .published op.forget }
  published := sys.published ++ [op.forget] }

/-- The change of the `i`th writer is made in the tree. -/
def change (i : ℕ) (w : Writer) (op : DeltaOp) : ListSystem := { sys with
  store := { sys.store with art := applyDeltaOp sys.store.art op }
  writers := sys.writers.set i { w with phase := .published op }
  published := sys.published ++ [op] }

def flush : ListSystem := { sys with store := sys.store.flush }

end ListSystem

open ListSystem

/-- What becomes of a writer's change: it is staged, made in the tree, or refused by its
condition. -/
def publishWrite (sys : ListSystem) (i : ℕ) (w : Writer) : Option ListSystem :=
  match w.op, w.phase with
  | .put key value, .submitted => some (sys.stage i w ⟨key, .put value w.seq w.createsKey⟩)
  | .delete key, .submitted => some (sys.stage i w ⟨key, .delete w.seq⟩)
  | .insert key value condition, .numbered =>
    some (if condition.allows (sys.store.art.lookup key) then sys.change i w ⟨key, .put value w.seq⟩
      else sys.setWriter i { w with phase := .finished })
  | .erase key condition, .numbered =>
    some (if condition.allows (sys.store.art.lookup key) then sys.change i w ⟨key, .delete w.seq⟩
      else sys.setWriter i { w with phase := .finished })
  | _, _ => none

/-- One step of a scan. -/
def scanStep (cacheHash : KeyRange → ℕ) (sys : ListSystem) (j : ℕ) (scan : Scan) :
    ScanMove → Option ListSystem
  | .check =>
    if scan.phase = .started then
      some (sys.setScan j scan
        (if sys.store.delta.treeKeySetLen = 0 then .flushed else .mustFlush))
    else none
  | .flush =>
    if scan.phase = .mustFlush ∧ sys.GateFree then some (sys.flush.setScan j scan .flushed)
    else none
  | .loadEpoch =>
    if scan.phase = .flushed then some (sys.setScan j scan (.probing sys.store.nextSeq)) else none
  | .serve =>
    match scan.phase with
    | .probing epoch =>
      match sys.store.cache.visit cacheHash epoch scan.range with
      | some entries => some (sys.setScan j scan (.done entries))
      | none => some (sys.setScan j scan .missed)
    | _ => none
  | .loadBefore =>
    if scan.phase = .missed then some (sys.setScan j scan (.before sys.store.nextSeq)) else none
  | .walk =>
    match scan.phase with
    | .before epoch =>
      some (sys.setScan j scan
        (.walked epoch (walkKeys sys.store.art sys.store.delta scan.range)))
    | _ => none
  | .loadAfter =>
    match scan.phase with
    | .walked epoch entries =>
      some (sys.setScan j scan
        (if epoch = sys.store.nextSeq then .storing epoch entries else .done entries))
    | _ => none
  | .store =>
    match scan.phase with
    | .storing epoch entries =>
      let cache := sys.store.cache.store cacheHash epoch scan.range entries
      some ({ sys with store := { sys.store with cache := cache } }.setScan j scan (.done entries))
    | _ => none

def listStep (cacheHash : KeyRange → ℕ) (sys : ListSystem) : ListAction → Option ListSystem
  | .begin op =>
    -- the endpoint lock of the key must be free; deleting an absent key takes no number
    if (∀ w ∈ sys.writers, w.InFlight → w.op.key ≠ op.key) ∧
        ¬ (op = .delete op.key ∧ sys.store.getVersion op.key = none) then
      some (sys.number op)
    else none
  | .submit i =>
    match sys.writers[i]? with
    | some w =>
      if w.op.deferred ∧ w.phase = .numbered then
        some (sys.setWriter i { w with phase := .submitted })
      else none
    | none => none
  | .publish i =>
    match sys.writers[i]? with
    | some w => publishWrite sys i w
    | none => none
  | .ack i =>
    match sys.writers[i]? with
    | some w =>
      match w.phase with
      | .published p =>
        some { sys.setWriter i { w with phase := .finished } with acked := sys.acked ++ [p] }
      | _ => none
    | none => none
  | .flush => if sys.GateFree then some sys.flush else none
  | .scan q =>
    let phase := if q.limit = 0 then .done [] else .started
    some { sys with scans := sys.scans ++ [⟨q, sys.acked, phase⟩] }
  | .move j step =>
    match sys.scans[j]? with
    | some scan => scanStep cacheHash sys j scan step
    | none => none

/-! ## Listings that reflect a write -/

/-- The map has under the key of `p` what `p` or a later write of the key left there. -/
def Reflected (published : List DeltaOp) (m : VersionedMap) (p : DeltaOp) : Prop :=
  ∃ p' ∈ published, p'.key = p.key ∧ p.entry.seq ≤ p'.entry.seq ∧
    m.lookup p.key = p'.entry.record

/-- The map has under every key what the tree was opened with, or what a write left there. -/
def Sourced (m₀ : VersionedMap) (published : List DeltaOp) (m : VersionedMap) : Prop :=
  ∀ k, m.lookup k = m₀.lookup k ∨ ∃ p ∈ published, p.key = k ∧ m.lookup k = p.entry.record

/-- The listing is that of a map in which all of the writes are reflected and nothing is made
up. -/
def ListingReflects (m₀ : VersionedMap) (published : List DeltaOp) (q : KeyRange)
    (entries : List KeyEntry) (writes : List DeltaOp) : Prop :=
  ∃ m, entries = listKeys m q ∧ Sourced m₀ published m ∧ ∀ p ∈ writes, Reflected published m p

/-! ## The condition -/

/-- The tree stays still around a walk whose listing may be cached: nothing is staged that
changes the key set, and no writer holds a number it has not published.  Around another walk
no delete is staged, since staged deletes use up the limit. -/
def StillWalk (sys : ListSystem) (q : KeyRange) : Prop :=
  if cacheableLimit q.limit then sys.store.delta.treeKeySetLen = 0 ∧ sys.GateFree
  else ∀ op ∈ sys.store.delta.pending, op.entry ≠ .delete op.entry.seq

/-- The keys of the tree and of new writes have no NUL byte, puts do not replace staged creations
the tree does not have yet, conditional writes find their key unstaged, and walks find the tree
still. -/
def Orderly (sys : ListSystem) (a : ListAction) : Prop :=
  sys.store.art.NulFree ∧
    match a with
    | .begin (.put key _) => key.NulFree ∧ CreationFlushed sys.store key
    | .begin op => op.key.NulFree
    | .publish i =>
      ∀ w ∈ sys.writers[i]?, w.op.deferred = false → sys.store.delta.get w.op.key = none
    | .move j .walk => ∀ scan ∈ sys.scans[j]?, StillWalk sys scan.range
    | _ => True

instance (sys : ListSystem) (q : KeyRange) : Decidable (StillWalk sys q) := by
  unfold StillWalk
  infer_instance

instance (sys : ListSystem) (a : ListAction) : Decidable (Orderly sys a) := by
  unfold Orderly
  split <;> infer_instance

end Tree
end Holt
