import Holt.Lib.Linearizability
import Holt.Lib.Transition
import Holt.Tree.AtomicBatch

/-!
# Concurrent writes of one persistent tree

`put` and `delete` log and stage in the write delta, under the key's endpoint lock, in one
critical section.  `put_if_absent`, `compare_and_put`, `delete_if_version`, `rename` and
`Tree::atomic` take two: they first flush the write delta of the tree under the batch side of
the mutation gate, let go of it, and then read and change the tree itself under their own
gates and endpoint locks.  A section is one step here; the steps of different calls
interleave freely.

The tree (`art`) is the versioned map the walker maintains.  The log is the list of submitted
records, and `replayWal` is `replay_wal` over it.  Records the walker refuses are outside this
model: over-long keys and values, and keys that extend a key of the tree by a NUL byte, which
make a direct write fail half-way and a flush give the delta back.  `Unstaged` keeps to keys
without NUL bytes, of which the walker refuses none.  The journal's own failures are left out
as well.
-/

namespace Holt
namespace Tree

open Transition Linearizability

/-- A WAL record: one operation with its number, or a batch with the number of its first. -/
inductive WalRecord
  | single (seq : ℕ) (op : WalOp)
  | batch (base : ℕ) (ops : List WalOp)
deriving DecidableEq

def replayRecord (m : VersionedMap) : WalRecord → VersionedMap
  | .single seq op => replayOp m seq op
  | .batch base ops => replayBatch m base ops

/-- `replay_wal` in log order. -/
def replayWal (m : VersionedMap) (wal : List WalRecord) : VersionedMap :=
  wal.foldl replayRecord m

/-- The shared state of an open tree. -/
structure Store where
  art : VersionedMap
  pending : List DeltaOp
  wal : List WalRecord
  nextSeq : ℕ
  failedClosed : Bool

/-- What readers see: the tree with the write delta applied. -/
def Store.contents (s : Store) : VersionedMap := applyWriteDeltaOps s.art s.pending

/-- A call of a write. -/
inductive Op
  | put (key : Key) (value : Value)
  | delete (key : Key)
  | putIfAbsent (key : Key) (value : Value)
  | compareAndPut (key : Key) (expected : ℕ) (value : Value)
  | deleteIfVersion (key : Key) (expected : ℕ)
  | rename (src dst : Key) (force : Bool)
  | atomic (ops : List BatchOp)
deriving DecidableEq

/-- What a call returns. -/
inductive Outcome
  | done
  | flag (b : Bool)
  | error (e : Error)
deriving DecidableEq

/-! ## Critical sections -/

/-- `flush_write_delta_for_tree`. -/
def flushWriteDelta (s : Store) : Store :=
  { s with art := applyWriteDeltaOps s.art s.pending, pending := [] }

/-- The section of `put_deferred`. -/
def putDeferred (s : Store) (key : Key) (value : Value) : Store × Outcome :=
  ({ s with
      nextSeq := s.nextSeq + 1
      wal := s.wal ++ [.single s.nextSeq (.insert key value)]
      pending := insertPending s.pending ⟨key, .put value s.nextSeq⟩ }, .done)

/-- The section of `delete_deferred`: an absent key is not logged and takes no number. -/
def deleteDeferred (s : Store) (key : Key) : Store × Outcome :=
  if (lookupRecordUnlocked s.art s.pending key).isNone then (s, .flag false)
  else ({ s with
      nextSeq := s.nextSeq + 1
      wal := s.wal ++ [.single s.nextSeq (.erase key)]
      pending := insertPending s.pending ⟨key, .delete s.nextSeq⟩ }, .flag true)

/-- The section of `put_inner_conditional`. -/
def putInnerConditional (s : Store) (key : Key) (value : Value) (condition : InsertCondition) :
    Store × Outcome :=
  match s.art.insertConditional key value s.nextSeq condition with
  | (art, true) => ({ s with
      art := art
      nextSeq := s.nextSeq + 1
      wal := s.wal ++ [.single s.nextSeq (.insert key value)] }, .flag true)
  | (_, false) => ({ s with nextSeq := s.nextSeq + 1 }, .flag false)

/-- The section of `delete_inner_conditional`. -/
def deleteInnerConditional (s : Store) (key : Key) (condition : EraseCondition) :
    Store × Outcome :=
  match s.art.eraseConditional key condition with
  | (art, true) => ({ s with
      art := art
      nextSeq := s.nextSeq + 1
      wal := s.wal ++ [.single s.nextSeq (.erase key)] }, .flag true)
  | (_, false) => ({ s with nextSeq := s.nextSeq + 1 }, .flag false)

/-- The section of `rename`: both keys are looked up in the tree. -/
def renameSection (s : Store) (src dst : Key) (force : Bool) : Store × Outcome :=
  let burned := { s with nextSeq := s.nextSeq + 1 }
  match s.art.lookup src with
  | none => (burned, .error .notFound)
  | some record =>
    if src = dst then (burned, .done)
    else if force = false ∧ (s.art.lookup dst).isSome then (burned, .error .dstExists)
    else
      let erased := (s.art.eraseConditional src .always).1
      ({ burned with
          art := (erased.insertConditional dst record.value s.nextSeq .always).1
          wal := s.wal ++ [.single s.nextSeq (.rename src dst force)] }, .done)

/-- The numbers a batch reserves. -/
def batchCount (ops : List BatchOp) : ℕ := ops.countP BatchOp.emitsWal

lemma nextSeq_add_batchCount (op : BatchOp) (ops : List BatchOp) (seq : ℕ) :
    op.nextSeq seq + batchCount ops = seq + batchCount (op :: ops) := by
  rw [BatchOp.nextSeq, batchCount, batchCount, List.countP_cons]
  split_ifs <;> omega

/-- The section of `apply_batch`: preflight through the delta, apply on the tree. -/
def applyBatch (s : Store) (ops : List BatchOp) : Store × Outcome :=
  let burned := { s with nextSeq := s.nextSeq + batchCount ops }
  match preflightBatch s.art s.pending s.nextSeq ops with
  | .error e => (burned, .error e)
  | .ok false => (burned, .flag false)
  | .ok true =>
    if batchCount ops = 0 then (burned, .flag true)
    else
      match applyBatchWalkerInline s.art s.nextSeq ops with
      | (art, .ok logged) =>
        ({ burned with art := art, wal := s.wal ++ [.batch s.nextSeq logged] }, .flag true)
      | (art, .error e) => ({ burned with art := art, failedClosed := true }, .error e)

/-- The section that gives a call its result.  A closed store refuses every write, and an
empty batch does not get this far. -/
def runSection (s : Store) (op : Op) : Store × Outcome :=
  if op = .atomic [] then (s, .flag true)
  else if s.failedClosed then (s, .error .failedClosed)
  else
    match op with
    | .put key value => putDeferred s key value
    | .delete key => deleteDeferred s key
    | .putIfAbsent key value => putInnerConditional s key value .ifAbsent
    | .compareAndPut key expected value => putInnerConditional s key value (.ifVersion expected)
    | .deleteIfVersion key expected => deleteInnerConditional s key (.ifVersion expected)
    | .rename src dst force => renameSection s src dst force
    | .atomic ops => applyBatch s ops

/-- The calls that flush the write delta before their own section. -/
def Op.flushesFirst : Op → Bool
  | .put _ _ | .delete _ | .atomic [] => false
  | _ => true

/-! ## Interleavings -/

/-- How far a call has come. -/
inductive CallPhase
  | invoked
  | flushed
  | returning (out : Outcome)
  | returned
deriving DecidableEq

structure Call where
  op : Op
  phase : CallPhase
deriving DecidableEq

/-- The tree, the calls so far, each known by its index, and the trace of the run. -/
structure System where
  store : Store
  calls : List Call
  trace : List (Mark Op Outcome)

/-- A tree opened on a map, with an empty log. -/
def System.open (m : VersionedMap) (nextSeq : ℕ) : System where
  store := ⟨m, [], [], nextSeq, false⟩
  calls := []
  trace := []

/-- One step of one call, or a flush by another party: the debt flush after a deferred
write, a scan, or a checkpoint. -/
inductive Action
  | call (op : Op)
  | flushFirst (i : ℕ)
  | runSection (i : ℕ)
  | ret (i : ℕ)
  | flush
deriving DecidableEq

def step (sys : System) : Action → Option System
  | .call op => some { sys with
      calls := sys.calls ++ [⟨op, .invoked⟩]
      trace := sys.trace ++ [.call sys.calls.length op] }
  | .flushFirst i =>
    match sys.calls[i]? with
    | some ⟨op, .invoked⟩ =>
      -- `ensure_writable` refuses a call on a closed store before it flushes
      if op.flushesFirst ∧ sys.store.failedClosed = false then some { sys with
          store := flushWriteDelta sys.store
          calls := sys.calls.set i ⟨op, .flushed⟩ }
      else none
    | _ => none
  | .runSection i =>
    match sys.calls[i]? with
    | some ⟨op, phase⟩ =>
      if phase = (if op.flushesFirst ∧ sys.store.failedClosed = false then .flushed
          else .invoked) then
        let result := runSection sys.store op
        some {
          store := result.1
          calls := sys.calls.set i ⟨op, .returning result.2⟩
          trace := sys.trace ++ [.point i op result.2] }
      else none
    | none => none
  | .ret i =>
    match sys.calls[i]? with
    | some ⟨op, .returning out⟩ => some { sys with
        calls := sys.calls.set i ⟨op, .returned⟩
        trace := sys.trace ++ [.ret i out] }
    | _ => none
  | .flush => some { sys with store := flushWriteDelta sys.store }

/-! ## The sequential object -/

/-- A write on a versioned map and the counter its versions come from. -/
def specApply (s : VersionedMap × ℕ) : Op → (VersionedMap × ℕ) × Outcome
  | .put key value => ((s.1.insert key ⟨value, s.2⟩, s.2 + 1), .done)
  | .delete key =>
    if (s.1.lookup key).isNone then (s, .flag false)
    else ((s.1.erase key, s.2 + 1), .flag true)
  | .putIfAbsent key value =>
    let r := s.1.insertConditional key value s.2 .ifAbsent
    ((r.1, s.2 + 1), .flag r.2)
  | .compareAndPut key expected value =>
    let r := s.1.insertConditional key value s.2 (.ifVersion expected)
    ((r.1, s.2 + 1), .flag r.2)
  | .deleteIfVersion key expected =>
    let r := s.1.eraseConditional key (.ifVersion expected)
    ((r.1, s.2 + 1), .flag r.2)
  | .rename src dst force =>
    match s.1.lookup src with
    | none => ((s.1, s.2 + 1), .error .notFound)
    | some record =>
      if src = dst then ((s.1, s.2 + 1), .done)
      else if force = false ∧ (s.1.lookup dst).isSome then ((s.1, s.2 + 1), .error .dstExists)
      else (((s.1.erase src).insert dst ⟨record.value, s.2⟩, s.2 + 1), .done)
  | .atomic ops =>
    match specBatch s.1 s.2 ops with
    | .error e => ((s.1, s.2 + batchCount ops), .error e)
    | .ok none => ((s.1, s.2 + batchCount ops), .flag false)
    | .ok (some m) => ((m, s.2 + batchCount ops), .flag true)

/-! ## The condition -/

/-- The keys a call reads or writes in the tree itself. -/
def Op.touches (key : Key) : Op → Bool
  | .put _ _ | .delete _ => false
  | .putIfAbsent k _ | .compareAndPut k _ _ | .deleteIfVersion k _ => key = k
  | .rename src dst _ => key = src ∨ key = dst
  | .atomic ops => ops.any (BatchOp.touches key)

/-- The call's batch forces a rename of a key onto itself. -/
def Op.selfRenames : Op → Bool
  | .atomic ops => ops.any BatchOp.selfRename
  | _ => false

/-- The keys under which a call may insert a record. -/
def Op.inserts : Op → List Key
  | .put key _ | .putIfAbsent key _ | .compareAndPut key _ _ | .rename _ key _ => [key]
  | .delete _ | .deleteIfVersion _ _ => []
  | .atomic ops => ops.filterMap BatchOp.inserts

/-- The keys a call may insert have no NUL byte. -/
def Op.NulFree (op : Op) : Prop := ∀ key ∈ op.inserts, key.NulFree

instance (op : Op) : Decidable op.NulFree :=
  inferInstanceAs (Decidable (∀ key ∈ op.inserts, key.NulFree))

/-- Neither the keys of the tree nor those of a call have NUL bytes; and when a section runs on
the tree, none of its keys is staged in the write delta, and it does not force a rename of a key
onto itself. -/
def Unstaged (sys : System) (a : Action) : Prop :=
  sys.store.art.NulFree ∧
    match a with
    | .call op => op.NulFree
    | .runSection i => ∀ c ∈ sys.calls[i]?,
        (∀ d ∈ sys.store.pending, c.op.touches d.key = false) ∧ c.op.selfRenames = false
    | .flushFirst _ | .ret _ | .flush => True

instance (sys : System) : DecidablePred (Unstaged sys) := fun a =>
  match a with
  | .call op => inferInstanceAs (Decidable (sys.store.art.NulFree ∧ op.NulFree))
  | .runSection i => inferInstanceAs (Decidable (sys.store.art.NulFree ∧ ∀ c ∈ sys.calls[i]?,
      (∀ d ∈ sys.store.pending, c.op.touches d.key = false) ∧ c.op.selfRenames = false))
  | .flushFirst _ => inferInstanceAs (Decidable (sys.store.art.NulFree ∧ True))
  | .ret _ => inferInstanceAs (Decidable (sys.store.art.NulFree ∧ True))
  | .flush => inferInstanceAs (Decidable (sys.store.art.NulFree ∧ True))

end Tree
end Holt
