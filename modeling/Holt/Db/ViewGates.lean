import Holt.Lib.GateOrder
import Holt.Tree.SizedBatch
import Holt.Tree.Writes

/-!
# Views and batches over several trees

A DB has one maintenance gate, one commit gate and a mutation gate for each tree, and every call
enters them in this order, the mutation gates by ascending tree id.  `DB::atomic` holds the
mutation gates of all its trees exclusively from its preflight to its last operation, and
`DB::view` holds those of its trees exclusively while it flushes their write deltas and copies
their roots one after the other.

The threads are programs of `Holt.Lib.GateProgram`; what a thread does between gates is one
action, and a batch is applied operation by operation.  Two things can go wrong inside a batch.
The walk of an insert fails if the key and a key of the tree are the same up to a zero byte, as
for `a` and `a\0`: leaves are stored under the key with a zero byte behind it, and no leaf may be
a prefix of another.  No preflight looks for that.  And a batch on a single tree flushes before it
enters its gates, so that a key scan of its preflight may find staged writes and flush them in
the middle of its gates.

`made` lists what has been done to a tree, with the batch it is from; no code keeps it.  Names of
trees and the prefixes that a view is restricted to are left out, and so are flushes that fail:
the call that flushes returns their error.  Keys of deleted records are not kept either, although
their leaves collide until a compaction drops them; `orderly` therefore asks of all keys, whether
they are deleted later or not, that they have no zero byte.
-/

namespace Holt
namespace Db
namespace Views

open List GateProgram Transition Holt.Tree

inductive DbGate
  | maintenance
  | mutation (tree : ℕ)
  | commit
deriving DecidableEq

/-- The order in which the gates are entered. -/
def DbGate.rank : DbGate → WithTop ℕ
  | .maintenance => (0 : ℕ)
  | .mutation tree => (tree + 1 : ℕ)
  | .commit => ⊤

/-- The operations of a batch, by tree. -/
abbrev Groups := List (ℕ × List BatchOp)

/-- An operation that has been done to a tree, and the DB batch it is from. -/
structure Made where
  batch : Option ℕ
  seq : ℕ
  op : BatchOp
deriving DecidableEq

structure TreeState where
  art : VersionedMap
  pending : List DeltaOp
  made : List Made

structure DbBatch where
  groups : Groups
  base : ℕ

/-- A root that a view has copied, and what had been done to its tree. -/
structure Root where
  tree : ℕ
  image : VersionedMap
  made : List Made

structure DbStore where
  trees : ℕ → TreeState
  nextSeq : ℕ
  failedClosed : Bool
  /-- The DB batches that have been applied, or begun. -/
  batches : List DbBatch
  /-- The roots of each view. -/
  views : List (List Root)

/-- A DB whose trees have the given records. -/
def DbStore.opened (arts : ℕ → VersionedMap) (nextSeq : ℕ) : DbStore :=
  ⟨fun tree => ⟨arts tree, [], []⟩, nextSeq, false, [], []⟩

/-- What operations make of a tree. -/
def replayMade (art : VersionedMap) (made : List Made) : VersionedMap :=
  made.foldl (fun art e => (applyBatchOp art e.seq e.op).1) art

def stagedMade (d : DeltaOp) : Made :=
  match d.entry with
  | .put value seq => ⟨none, seq, .put d.key value⟩
  | .delete seq => ⟨none, seq, .delete d.key⟩

/-- `flush_write_deltas_for_tree`. -/
def TreeState.flush (t : TreeState) : TreeState :=
  ⟨applyWriteDeltaOps t.art t.pending, [], t.made ++ t.pending.map stagedMade⟩

/-! ## Batches -/

/-- `DB::group_batch_ops`. -/
def groupBatchOps : List (ℕ × BatchOp) → Groups
  | [] => []
  | (tree, op) :: rest =>
    let groups := groupBatchOps rest
    -- the operations of a tree stand where its first operation stands
    (tree, op :: (groups.lookup tree).getD []) :: groups.filter (fun g => g.1 ≠ tree)

/-- `count_wal_ops`. -/
def countWalOps (groups : Groups) : ℕ := (groups.map (fun g => batchCount g.2)).sum

/-- The trees of a call, in the order of their gates. -/
def sortedTrees (trees : List ℕ) : List ℕ := trees.dedup.insertionSort (· ≤ ·)

/-- `preflight_batch_groups`. -/
def preflightGroups (store : DbStore) : Groups → ℕ → Bool
  | [], _ => true
  | (tree, ops) :: rest, base =>
    match preflightSizedBatch (store.trees tree).art (store.trees tree).pending base ops with
    | .ok true => preflightGroups store rest (base + batchCount ops)
    | _ => false

/-- The preflight of a batch comes to open a key scan. -/
def opensScan (art : VersionedMap) (pending : List DeltaOp) :
    BatchOverlay → ℕ → List BatchOp → Bool
  | _, _, [] => false
  | overlay, seq, .assertPrefixEmpty pre :: rest =>
    if overlay.keys = ∅ then
      basePrefixEmpty art pre && opensScan art pending overlay seq rest
    else decide (¬ ∃ k ∈ overlay.keys, (overlay.lookup k).join.isSome ∧ pre.isPrefixOf k)
  | overlay, seq, op :: rest =>
    match preflightSizedOp art pending overlay seq op with
    | .ok (some overlay') => opensScan art pending overlay' (op.nextSeq seq) rest
    | _ => false

/-- A tree whose staged writes the preflight of a batch comes to flush. -/
def flushesInside (store : DbStore) : Groups → ℕ → Option ℕ
  | [], _ => none
  | (tree, ops) :: rest, base =>
    let t := store.trees tree
    if t.pending ≠ [] ∧ opensScan t.art t.pending ∅ base ops = true then some tree
    else
      match preflightSizedBatch t.art t.pending base ops with
      | .ok true => flushesInside store rest (base + batchCount ops)
      | _ => none

/-- Two keys of which one leaf would be a prefix of the other. -/
def collide (k k' : Key) : Bool := (k ++ [0]).isPrefixOf k' || (k' ++ [0]).isPrefixOf k

lemma collide_eq_false {k k' : Key} (hk : k.NulFree) (hk' : k'.NulFree) :
    collide k k' = false := by
  rw [collide, Bool.eq_false_iff, ne_eq, Bool.or_eq_true, isPrefixOf_iff_prefix,
    isPrefixOf_iff_prefix]
  rintro (h | h)
  · exact hk' (h.subset (by simp))
  · exact hk (h.subset (by simp))

/-- The walk of an operation meets a leaf that it cannot stand beside. -/
def collides (art : VersionedMap) : BatchOp → Bool
  | .put key _ | .putIfAbsent key _ | .compareAndPut key _ _ =>
    decide (∃ k ∈ art.keys, collide key k = true)
  | .rename src dst force =>
    decide (src ≠ dst ∧ (art.lookup src).isSome ∧ ¬ (force = false ∧ (art.lookup dst).isSome) ∧
      ∃ k ∈ art.keys, collide dst k = true)
  | _ => false

/-- Keys without a zero byte do not collide. -/
lemma collides_eq_false {art : VersionedMap} {op : BatchOp} (hart : art.NulFree)
    (hop : ∀ key ∈ op.inserts, key.NulFree) : collides art op = false := by
  have hnone : ∀ key ∈ op.inserts, ¬ ∃ k ∈ art.keys, collide key k = true := by
    rintro key hkey ⟨k, hk, hcollide⟩
    rw [collide_eq_false (hop key hkey) (hart k hk)] at hcollide
    cases hcollide
  cases op with
  | put key | putIfAbsent key | compareAndPut key =>
    exact decide_eq_false (hnone key rfl)
  | rename src dst force => exact decide_eq_false fun h => hnone dst rfl h.2.2.2
  | _ => rfl

/-- One operation of `apply_batch_walker_inline`, and whether it succeeds.  A rename that fails
has erased its source. -/
def TreeState.apply (t : TreeState) (batch : Option ℕ) (seq : ℕ) (op : BatchOp) :
    TreeState × Bool :=
  if collides t.art op then
    match op with
    | .rename src _ _ =>
      ({ t with
        art := (applyBatchOp t.art seq (.delete src)).1
        made := t.made ++ [⟨batch, seq, .delete src⟩] }, false)
    | _ => (t, false)
  else
    ({ t with
      art := (applyBatchOp t.art seq op).1
      made := t.made ++ [⟨batch, seq, op⟩] }, (applyBatchOp t.art seq op).2.isOk)

/-! ## The threads -/

/-- The work of a thread between two gate operations. -/
inductive DbAct
  | flush (trees : List ℕ)
  | flushAll
  /-- The flush of a call that holds the mutation gates of the trees. -/
  | flushFrozen (trees : List ℕ)
  | flushIfNeeded (tree : ℕ)
  | putDeferred (tree : ℕ) (key : Key) (value : Value)
  | deleteDeferred (tree : ℕ) (key : Key)
  | stage (tree : ℕ) (op : DeltaOp)
  /-- A view has the roots of some trees and copies those of others. -/
  | capture (todo : List ℕ) (roots : List Root)
  /-- A batch is inside its gates; `db` tells `DB::atomic` from a batch on one tree, and `gated`
  whether it commits inside the commit gate. -/
  | enterBatch (db : Bool) (groups : Groups) (gated : Bool)
  | preflight (db : Bool) (groups : Groups) (gated : Bool)
  | begin (db : Bool) (groups : Groups) (base : ℕ)
  | apply (batch : Option ℕ) (groups : Groups) (seq : ℕ)

abbrev DbInstr := Instr DbGate DbAct

abbrev DbThread := Thread DbGate DbAct

abbrev DbState := State DbGate DbAct DbStore

section Programs

open Instr DbGate

/-- `Gate::enter_exclusive` and `Gate::enter_batch`. -/
def enterExclusive (g : DbGate) : List DbInstr := [setWrite g, drain g]

/-- The mutation gates of trees, one after the other. -/
def enterMutations (trees : List ℕ) : List DbInstr :=
  trees.flatMap (fun tree => enterExclusive (mutation tree))

def leaveMutations (trees : List ℕ) : List DbInstr :=
  trees.map (fun tree => leaveExclusive (mutation tree))

/-- Work inside the commit gate. -/
def committing (a : DbAct) : List DbInstr := [enterShared commit, act a, leaveShared commit]

/-- A flush with gates of its own. -/
def flushSection (tree : ℕ) : List DbInstr :=
  [enterShared maintenance] ++ enterExclusive (mutation tree) ++ committing (.flush [tree]) ++
    [leaveExclusive (mutation tree), leaveShared maintenance]

def setTree (store : DbStore) (tree : ℕ) (t : TreeState) : DbStore :=
  { store with trees := Function.update store.trees tree t }

/-- The effect of the work on the store, and what the thread does next. -/
def DbAct.run (store : DbStore) : DbAct → DbStore × List DbInstr
  | .flush trees | .flushFrozen trees =>
    ({ store with
      trees := fun tree =>
        if tree ∈ trees then (store.trees tree).flush else store.trees tree }, [])
  | .flushAll => ({ store with trees := fun tree => (store.trees tree).flush }, [])
  | .flushIfNeeded tree =>
    (store, if (store.trees tree).pending = [] then [] else flushSection tree)
  | .putDeferred tree key value =>
    if store.failedClosed then (store, [])
    else
      ({ store with nextSeq := store.nextSeq + 1 },
        committing (.stage tree ⟨key, .put value store.nextSeq⟩))
  | .deleteDeferred tree key =>
    let t := store.trees tree
    if store.failedClosed ∨ (lookupRecordUnlocked t.art t.pending key).isNone then (store, [])
    else
      ({ store with nextSeq := store.nextSeq + 1 },
        committing (.stage tree ⟨key, .delete store.nextSeq⟩))
  | .stage tree op =>
    let t := store.trees tree
    (setTree store tree { t with pending := insertPending t.pending op }, [])
  | .capture [] roots => ({ store with views := store.views ++ [roots] }, [])
  | .capture (tree :: todo) roots =>
    let t := store.trees tree
    (store, [act (.capture todo (roots ++ [⟨tree, t.art, t.made⟩]))])
  | .enterBatch db groups gated =>
    (store,
      if store.failedClosed then []
      else if db then
        committing (.flushFrozen (groups.map Prod.fst)) ++ [act (.preflight true groups gated)]
      else [act (.preflight false groups gated)])
  | .preflight db groups gated =>
    ({ store with nextSeq := store.nextSeq + countWalOps groups },
      match flushesInside store groups store.nextSeq with
      | some tree => flushSection tree
      | none =>
        if preflightGroups store groups store.nextSeq = true ∧ countWalOps groups ≠ 0 then
          if gated then committing (.begin db groups store.nextSeq)
          else [act (.begin db groups store.nextSeq)]
        else [])
  | .begin true groups base =>
    ({ store with batches := store.batches ++ [⟨groups, base⟩] },
      [act (.apply (some store.batches.length) groups base)])
  | .begin false groups base => (store, [act (.apply none groups base)])
  | .apply _ [] _ => (store, [])
  | .apply batch ((_, []) :: rest) seq => (store, [act (.apply batch rest seq)])
  | .apply batch ((tree, op :: ops) :: rest) seq =>
    let (t, ok) := (store.trees tree).apply batch seq op
    if ok then
      (setTree store tree t, [act (.apply batch ((tree, ops) :: rest) (op.nextSeq seq))])
    else ({ setTree store tree t with failedClosed := true }, [])

/-- The calls on a DB and its trees, and the passes of the background threads. -/
inductive DbRequest
  | view (trees : List ℕ)
  | atomic (ops : List (ℕ × BatchOp)) (gated : Bool)
  | treeAtomic (tree : ℕ) (ops : List BatchOp) (gated : Bool)
  | put (tree : ℕ) (key : Key) (value : Value)
  | delete (tree : ℕ) (key : Key)
  | scanKeys (tree : ℕ)
  | snapshot (tree : ℕ)
  | compactCandidate (tree : ℕ)
  | mergeCandidate (tree : ℕ)
  /-- A merge pass, and the creation, the drop and the finalization of trees. -/
  | mergePass
  | checkpointRound
  /-- The freeze of `gc_reachability_pass`, and of an export. -/
  | gcPass (trees : List ℕ)
  | truncate
  | journalState
deriving DecidableEq

/-- The gates of a request, in the order in which it enters and leaves them. -/
def DbRequest.program : DbRequest → List DbInstr
  | .view trees =>
    let trees := sortedTrees trees
    [enterShared maintenance] ++ enterMutations trees ++ [enterShared commit] ++
      [act (.flushFrozen trees), act (.capture trees [])] ++ [leaveShared commit] ++
      leaveMutations trees ++ [leaveShared maintenance]
  | .atomic ops gated =>
    let groups := groupBatchOps ops
    let trees := sortedTrees (groups.map Prod.fst)
    [enterShared maintenance] ++ enterMutations trees ++ [act (.enterBatch true groups gated)] ++
      leaveMutations trees ++ [leaveShared maintenance]
  | .treeAtomic tree ops gated =>
    [act (.flushIfNeeded tree), enterShared maintenance] ++ enterMutations [tree] ++
      [act (.enterBatch false [(tree, ops)] gated)] ++ leaveMutations [tree] ++
      [leaveShared maintenance]
  | .put tree key value =>
    [enterShared maintenance, enterShared (mutation tree), act (.putDeferred tree key value),
      leaveShared (mutation tree), leaveShared maintenance]
  | .delete tree key =>
    [enterShared maintenance, enterShared (mutation tree), act (.deleteDeferred tree key),
      leaveShared (mutation tree), leaveShared maintenance]
  | .scanKeys tree =>
    [act (.flushIfNeeded tree), enterShared maintenance, enterShared (mutation tree),
      leaveShared (mutation tree), leaveShared maintenance]
  | .snapshot tree => flushSection tree
  | .compactCandidate tree =>
    [enterShared maintenance] ++ enterExclusive (mutation tree) ++
      [enterShared commit, leaveShared commit, leaveExclusive (mutation tree),
        leaveShared maintenance]
  | .mergeCandidate tree =>
    enterExclusive maintenance ++ enterExclusive (mutation tree) ++
      [enterShared commit, leaveShared commit, leaveExclusive (mutation tree),
        leaveExclusive maintenance]
  | .mergePass =>
    enterExclusive maintenance ++
      [enterShared commit, leaveShared commit, leaveExclusive maintenance]
  | .checkpointRound =>
    [enterShared maintenance] ++ enterExclusive commit ++ [act .flushAll] ++
      [leaveExclusive commit, leaveShared maintenance]
  | .gcPass trees =>
    enterExclusive maintenance ++ committing (.flush trees) ++ enterExclusive commit ++
      [act .flushAll] ++ [leaveExclusive commit, leaveExclusive maintenance]
  | .truncate =>
    enterExclusive maintenance ++ enterExclusive commit ++
      [leaveExclusive commit, leaveExclusive maintenance]
  | .journalState => enterExclusive commit ++ [leaveExclusive commit]

end Programs

/-- One step of the threads of a DB. -/
abbrev dbStep : DbState → GateProgram.Action DbRequest → Option DbState :=
  GateProgram.step DbAct.run DbRequest.program

/-- The keys that a request may insert. -/
def DbRequest.inserts : DbRequest → List Key
  | .put _ key _ => [key]
  | .atomic ops _ => ops.filterMap (fun op => op.2.inserts)
  | .treeAtomic _ ops _ => ops.filterMap BatchOp.inserts
  | _ => []

/-- The keys that requests insert have no zero byte, nor have those that a DB batch finds in a
tree or inserts there, and no batch on a single tree finds staged writes when its preflight scans
keys. -/
def orderly (s : DbState) : GateProgram.Action DbRequest → Bool
  | .call r => decide (∀ key ∈ r.inserts, key.NulFree)
  | .run i =>
    match s.threads[i]? with
    | some ⟨_, .act (.preflight false groups _) :: _⟩ =>
      (flushesInside s.store groups s.store.nextSeq).isNone
    | some ⟨_, .act (.apply (some _) ((tree, op :: _) :: _) _) :: _⟩ =>
      decide ((s.store.trees tree).art.NulFree ∧ ∀ key ∈ op.inserts, key.NulFree)
    | _ => true

abbrev Orderly (s : DbState) (a : GateProgram.Action DbRequest) : Prop := orderly s a = true

/-! ## The programs ascend -/

/-- The trees of a batch. -/
def batchTrees (groups : Groups) : List ℕ := groups.map Prod.fst

/-- Where a thread may do its work. -/
def DbAct.ready : DbAct → Held DbGate → Prop
  | .flush _, _ | .flushAll, _ => True
  | .flushFrozen trees, held => ∀ tree ∈ trees, DbGate.mutation tree ∈ held.exclusive
  | .flushIfNeeded _, held => held = Held.none
  | .putDeferred tree _ _, held | .deleteDeferred tree _, held =>
    DbGate.mutation tree ∈ held.shared ∧ DbGate.commit ∉ held.all
  | .stage tree _, held => DbGate.mutation tree ∈ held.shared
  | .capture todo roots, held =>
    ∀ tree ∈ todo ++ roots.map Root.tree, DbGate.mutation tree ∈ held.exclusive
  | .enterBatch _ groups _, held | .preflight _ groups _, held =>
    (∀ tree ∈ batchTrees groups, DbGate.mutation tree ∈ held.exclusive) ∧
      DbGate.commit ∉ held.all
  | .begin _ groups _, held | .apply _ groups _, held =>
    ∀ tree ∈ batchTrees groups, DbGate.mutation tree ∈ held.exclusive

abbrev DbAscending : Held DbGate → List DbInstr → Prop := Ascending DbGate.rank DbAct.ready

lemma rank_lt_commit {g : DbGate} (h : g ≠ .commit) : g.rank < DbGate.commit.rank := by
  cases g with
  | maintenance => exact WithTop.coe_lt_top 0
  | mutation tree => exact WithTop.coe_lt_top (tree + 1)
  | commit => exact absurd rfl h

lemma rank_mutation_lt {t t' : ℕ} :
    (DbGate.mutation t).rank < (DbGate.mutation t').rank ↔ t < t' := by
  simp [DbGate.rank]

lemma rank_maintenance_lt (t : ℕ) : DbGate.maintenance.rank < (DbGate.mutation t).rank := by
  exact Nat.cast_lt.mpr (Nat.succ_pos t)

/-- The trees of a request, each once, in the order of their ids. -/
lemma sortedTrees_spec (trees : List ℕ) :
    (sortedTrees trees).Pairwise (· < ·) ∧ ∀ tree, tree ∈ sortedTrees trees ↔ tree ∈ trees := by
  have hperm := perm_insertionSort (α := ℕ) (· ≤ ·) trees.dedup
  have hsorted := pairwise_insertionSort (α := ℕ) (· ≤ ·) trees.dedup
  have hnodup : (sortedTrees trees).Nodup := hperm.nodup_iff.mpr trees.nodup_dedup
  refine ⟨?_, fun tree => hperm.mem_iff.trans mem_dedup⟩
  exact (hsorted.and hnodup).imp (fun h => lt_of_le_of_ne h.1 h.2)

variable {trees : List ℕ} {held : Held DbGate} {rest : List DbInstr}

/-- One mutation gate after the other is above all that is held. -/
lemma ascending_enterMutations (hsorted : trees.Pairwise (· < ·)) (hclaimed : held.claimed = [])
    (hlow : ∀ tree ∈ trees, ∀ g ∈ held.all, g.rank < (DbGate.mutation tree).rank)
    (hrest : DbAscending { held with
      exclusive := (trees.map DbGate.mutation).reverse ++ held.exclusive } rest) :
    DbAscending held (enterMutations trees ++ rest) := by
  induction trees generalizing held with
  | nil => exact hrest
  | cons tree trees ih =>
    obtain ⟨hfirst, hsorted⟩ := pairwise_cons.mp hsorted
    have hbelow := hlow tree mem_cons_self
    have hnot : DbGate.mutation tree ∉ held.shared := fun hmem =>
      lt_irrefl _ (hbelow _ (mem_append_left _ hmem))
    refine ⟨hbelow, ⟨⟨?_, hnot⟩, fun g hg hne => ?_⟩, ?_⟩
    · exact mem_cons_self
    · refine hbelow g ?_
      simp only [Held.all, Held.owns, mem_append, mem_cons] at hg ⊢
      tauto
    · have hheld : ({ held with
          claimed := (DbGate.mutation tree :: held.claimed).erase (.mutation tree)
          exclusive := .mutation tree :: held.exclusive } : Held DbGate) =
          { held with exclusive := .mutation tree :: held.exclusive } := by
        rw [erase_cons_head]
      rw [hheld]
      refine ih hsorted hclaimed (fun t ht g hg => ?_) ?_
      · simp only [Held.all, Held.owns, mem_append, mem_cons] at hg
        by_cases heq : g = .mutation tree
        · rw [heq, rank_mutation_lt]
          exact hfirst t ht
        · refine hlow t (mem_cons_of_mem _ ht) g ?_
          simp only [Held.all, Held.owns, mem_append]
          tauto
      · simpa using hrest

lemma ascending_leaveMutations (hnodup : trees.Nodup) (hrest : DbAscending held rest) :
    DbAscending { held with
      exclusive := (trees.map DbGate.mutation).reverse ++ held.exclusive }
      (leaveMutations trees ++ rest) := by
  induction trees with
  | nil => exact hrest
  | cons tree trees ih =>
    obtain ⟨hnot, hnodup⟩ := nodup_cons.mp hnodup
    have herase : (((tree :: trees).map DbGate.mutation).reverse ++ held.exclusive).erase
        (.mutation tree) = (trees.map DbGate.mutation).reverse ++ held.exclusive := by
      rw [map_cons, reverse_cons, append_assoc, erase_append_right]
      · simp
      · simpa using hnot
    refine ⟨by simp, ?_⟩
    rw [herase]
    exact ih hnodup

/-- The maintenance gate, then the mutation gates, then the work under them. -/
lemma ascending_section {body : List DbInstr} (hsorted : trees.Pairwise (· < ·))
    (hbody : ∀ rest, DbAscending ⟨[.maintenance], [], (trees.map DbGate.mutation).reverse⟩ rest →
      DbAscending ⟨[.maintenance], [], (trees.map DbGate.mutation).reverse⟩ (body ++ rest)) :
    DbAscending Held.none ([.enterShared .maintenance] ++ enterMutations trees ++ body ++
      leaveMutations trees ++ [.leaveShared .maintenance]) := by
  have hnodup : trees.Nodup := hsorted.imp (fun h => Nat.ne_of_lt h)
  have hend : DbAscending ⟨[.maintenance], [], (trees.map DbGate.mutation).reverse⟩
      (leaveMutations trees ++ [.leaveShared .maintenance]) := by
    have hleave := @ascending_leaveMutations trees ⟨[.maintenance], [], []⟩
      [.leaveShared .maintenance] hnodup ⟨mem_cons_self, by simp [Ascending, Held.none]⟩
    simpa using hleave
  refine ⟨by simp [Held.none, Held.all, Held.owns], ?_⟩
  have hstart := @ascending_enterMutations trees ⟨[.maintenance], [], []⟩
    (body ++ (leaveMutations trees ++ [.leaveShared .maintenance])) hsorted rfl
    (fun tree _ g hg => by
      have hg' : g = .maintenance := by simpa [Held.all, Held.owns] using hg
      rw [hg']
      exact rank_maintenance_lt tree)
    (by simpa using hbody _ hend)
  simpa [Held.none] using hstart

/-- The commit gate is above all others. -/
lemma ascending_committing {a : DbAct} (hcommit : DbGate.commit ∉ held.all)
    (ha : a.ready { held with shared := .commit :: held.shared }) (hrest : DbAscending held rest) :
    DbAscending held (committing a ++ rest) := by
  refine ⟨fun g hg => rank_lt_commit fun heq => hcommit (heq ▸ hg), ha, mem_cons_self, ?_⟩
  simpa using hrest

lemma commit_notMem :
    DbGate.commit ∉ Held.all ⟨[.maintenance], [], (trees.map DbGate.mutation).reverse⟩ := by
  simp [Held.all, Held.owns]

lemma mem_batchTrees_sorted {groups : Groups} {tree : ℕ} (h : tree ∈ batchTrees groups) :
    tree ∈ sortedTrees (groups.map Prod.fst) := ((sortedTrees_spec _).2 tree).mpr h

lemma ascending_flushSection {tree : ℕ} : DbAscending Held.none (flushSection tree) := by
  have hsection := @ascending_section [tree] (committing (.flush [tree])) (pairwise_singleton _ _)
    (fun rest hrest => ascending_committing commit_notMem trivial hrest)
  simpa [flushSection, enterMutations, leaveMutations] using hsection

/-- Every request enters its gates in ascending order. -/
lemma ascending_program (r : DbRequest) : DbAscending Held.none r.program := by
  cases r with
  | view trees =>
    have hsection := @ascending_section (sortedTrees trees)
      ([.enterShared .commit] ++ [.act (.flushFrozen (sortedTrees trees)),
        .act (.capture (sortedTrees trees) [])] ++ [.leaveShared .commit])
      (sortedTrees_spec trees).1 ?_
    · simpa [DbRequest.program] using hsection
    · intro rest hrest
      refine ⟨fun g hg => rank_lt_commit fun heq => commit_notMem (heq ▸ hg), fun tree htree => ?_,
        fun tree htree => ?_, mem_cons_self, by simpa using hrest⟩
      · simpa using htree
      · simpa using htree
  | atomic ops gated =>
    have hsection := @ascending_section (sortedTrees ((groupBatchOps ops).map Prod.fst))
      [.act (.enterBatch true (groupBatchOps ops) gated)] (sortedTrees_spec _).1 ?_
    · simpa [DbRequest.program] using hsection
    · intro rest hrest
      refine ⟨⟨fun tree htree => ?_, commit_notMem⟩, hrest⟩
      simpa using mem_batchTrees_sorted htree
  | treeAtomic tree ops gated =>
    have hsection := @ascending_section [tree] [.act (.enterBatch false [(tree, ops)] gated)]
      (pairwise_singleton _ _) ?_
    · refine ⟨rfl, ?_⟩
      simpa using hsection
    · intro rest hrest
      refine ⟨⟨fun t ht => ?_, commit_notMem⟩, hrest⟩
      simpa [batchTrees] using ht
  | put tree key value | delete tree key | scanKeys tree =>
    simp [DbRequest.program, Ascending, Held.none, Held.all, Held.owns, DbAct.ready,
      rank_maintenance_lt]
  | snapshot tree => exact ascending_flushSection
  | compactCandidate tree | mergeCandidate tree | mergePass | checkpointRound | gcPass trees
  | truncate | journalState =>
    simp [DbRequest.program, enterExclusive, committing, Ascending, Held.none, Held.all, Held.owns,
      DbAct.ready, rank_maintenance_lt, rank_lt_commit]

end Views
end Db
end Holt
