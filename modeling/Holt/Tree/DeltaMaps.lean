import Holt.Tree.WriteDelta

/-!
# The two halves of the write delta and their counters

`store/buffer_manager/write_delta.rs` keeps the staged operations of a tree in two maps:
`pending` takes new operations, and a flush moves all of them to `flushing` while it applies
them to the tree.  Beside each map stands a counter of the operations that change the key set,
deletes and the puts that were flagged `creates_key`, which key scans read to decide whether
they have to flush.  The counters are kept up step by step as operations replace one another.

This is the part of the maps that belongs to one tree; `StagedOp.forget` drops the flag and
gives the operations of `Holt.Tree.WriteDelta`.  A flush sorts the operations it takes; since
they are on different keys, the order has no effect and is left as staged.
-/

namespace Holt
namespace Tree

open List

/-- `DeltaEntry`, with the flag of a put. -/
inductive StagedEntry
  | put (value : Value) (seq : ℕ) (createsKey : Bool)
  | delete (seq : ℕ)
deriving DecidableEq

/-- `DeltaOp`. -/
structure StagedOp where
  key : Key
  entry : StagedEntry
deriving DecidableEq

/-- `DeltaEntry::seq`. -/
def StagedEntry.seq : StagedEntry → ℕ
  | .put _ seq _ | .delete seq => seq

/-- `DeltaEntry::changes_key_set`. -/
def StagedEntry.changesKeySet : StagedEntry → Bool
  | .put _ _ createsKey => createsKey
  | .delete _ => true

/-- The entry without its flag. -/
def StagedEntry.forget : StagedEntry → DeltaEntry
  | .put value seq _ => .put value seq
  | .delete seq => .delete seq

/-- The operation without its flag. -/
def StagedOp.forget (op : StagedOp) : DeltaOp := ⟨op.key, op.entry.forget⟩

@[simp] lemma StagedOp.forget_key (op : StagedOp) : op.forget.key = op.key := rfl

@[simp] lemma StagedOp.forget_entry (op : StagedOp) : op.forget.entry = op.entry.forget := rfl

/-- `HashMap::get` on a tree's map. -/
def findStaged (ops : List StagedOp) (key : Key) : Option StagedEntry :=
  (ops.find? (fun d => d.key = key)).map StagedOp.entry

/-- `HashMap::remove` on a tree's map. -/
def removeStaged (ops : List StagedOp) (key : Key) : List StagedOp :=
  ops.filter (fun d => d.key ≠ key)

/-- `HashMap::insert` on a tree's map. -/
def insertStaged (ops : List StagedOp) (op : StagedOp) : List StagedOp :=
  removeStaged ops op.key ++ [op]

/-- The counter after `new` has taken the place of `old`: `decrement_tree_count` saturates. -/
def recount (count : ℕ) (old : Option StagedEntry) (new : StagedEntry) : ℕ :=
  (if old.any StagedEntry.changesKeySet then count - 1 else count) +
    (if new.changesKeySet then 1 else 0)

/-- `DeltaMaps`, for one tree. -/
structure DeltaMaps where
  pending : List StagedOp
  flushing : List StagedOp
  pendingKeySet : ℕ
  flushingKeySet : ℕ
deriving DecidableEq

namespace DeltaMaps

/-- `DeltaMaps::default`. -/
def empty : DeltaMaps := ⟨[], [], 0, 0⟩

/-- `DeltaMaps::insert_pending`. -/
def insertPending (d : DeltaMaps) (op : StagedOp) : DeltaMaps := { d with
  pending := insertStaged d.pending op
  pendingKeySet := recount d.pendingKeySet (findStaged d.pending op.key) op.entry }

/-- The body of the loop of `DeltaMaps::publish_flushing`. -/
def publishOne (d : DeltaMaps) (op : StagedOp) : DeltaMaps := { d with
  flushing := insertStaged d.flushing op
  flushingKeySet := recount d.flushingKeySet (findStaged d.flushing op.key) op.entry }

/-- `DeltaMaps::publish_flushing`. -/
def publishFlushing (d : DeltaMaps) (ops : List StagedOp) : DeltaMaps := ops.foldl publishOne d

/-- `DeltaMaps::remove_flushing`: only the operation with the same number is removed. -/
def removeFlushing (d : DeltaMaps) (op : StagedOp) : DeltaMaps :=
  match findStaged d.flushing op.key with
  | none => d
  | some current =>
    if current.seq = op.entry.seq then { d with
      flushing := removeStaged d.flushing op.key
      flushingKeySet :=
        if current.changesKeySet then d.flushingKeySet - 1 else d.flushingKeySet }
    else d

/-- `DeltaMaps::get`: the later of the two halves. -/
def get (d : DeltaMaps) (key : Key) : Option StagedEntry :=
  match findStaged d.pending key, findStaged d.flushing key with
  | some a, some b => if b.seq ≤ a.seq then some a else some b
  | none, some b => some b
  | some a, none => some a
  | none, none => none

/-- `DeltaMaps::tree_len`. -/
def treeLen (d : DeltaMaps) : ℕ := d.pending.length + d.flushing.length

/-- `DeltaMaps::tree_key_set_len`. -/
def treeKeySetLen (d : DeltaMaps) : ℕ := d.pendingKeySet + d.flushingKeySet

/-- `WriteDelta::begin_flush_tree`. -/
def beginFlushTree (d : DeltaMaps) : List StagedOp × DeltaMaps :=
  (d.pending, { d with pending := [], pendingKeySet := 0 }.publishFlushing d.pending)

/-- `WriteDelta::finish_flush`. -/
def finishFlush (d : DeltaMaps) (ops : List StagedOp) : DeltaMaps := ops.foldl removeFlushing d

end DeltaMaps

/-- `WRITE_DELTA_FLUSH_THRESHOLD`. -/
def writeDeltaFlushThreshold : ℕ := 262144

/-! ## The maps of a tree -/

/-- Each key is staged once. -/
def OncePerKey (ops : List StagedOp) : Prop := (ops.map StagedOp.key).Nodup

/-- The operations that change the key set. -/
def keySetChanges (ops : List StagedOp) : ℕ := ops.countP (fun d => d.entry.changesKeySet)

variable {ops : List StagedOp}

lemma stagedOnce_forget (h : OncePerKey ops) : StagedOnce (ops.map StagedOp.forget) := by
  unfold StagedOnce
  rw [List.map_map]
  exact h

lemma lookupWriteDelta_forget (ops : List StagedOp) (key : Key) :
    lookupWriteDelta (ops.map StagedOp.forget) key =
      (findStaged ops key).map StagedEntry.forget := by
  simp only [lookupWriteDelta, findStaged, find?_map, Option.map_map]
  rfl

lemma insertPending_forget (ops : List StagedOp) (op : StagedOp) :
    Tree.insertPending (ops.map StagedOp.forget) op.forget =
      (insertStaged ops op).map StagedOp.forget := by
  simp only [Tree.insertPending, insertStaged, removeStaged, map_append, map_cons,
    map_nil, List.filter_map]
  rfl

lemma oncePerKey_removeStaged (h : OncePerKey ops) (key : Key) :
    OncePerKey (removeStaged ops key) :=
  h.sublist (filter_sublist.map _)

lemma notMem_removeStaged (ops : List StagedOp) (key : Key) :
    key ∉ (removeStaged ops key).map StagedOp.key := by
  simp [removeStaged]

lemma oncePerKey_insertStaged (h : OncePerKey ops) (op : StagedOp) :
    OncePerKey (insertStaged ops op) := by
  unfold OncePerKey insertStaged
  rw [map_append, nodup_append]
  refine ⟨oncePerKey_removeStaged h op.key, by simp, ?_⟩
  rintro x hx y hy rfl
  obtain rfl : x = op.key := by simpa using hy
  exact notMem_removeStaged ops op.key hx

lemma findStaged_eq_none {key : Key} : findStaged ops key = none ↔ key ∉ ops.map StagedOp.key := by
  simp [findStaged, find?_eq_none]

lemma removeStaged_of_notMem {key : Key} (h : key ∉ ops.map StagedOp.key) :
    removeStaged ops key = ops := by
  refine filter_eq_self.mpr fun d hd => ?_
  have hne : d.key ≠ key := fun heq => h (heq ▸ List.mem_map_of_mem hd)
  simpa using hne

lemma findStaged_cons (op : StagedOp) (ops : List StagedOp) (key : Key) :
    findStaged (op :: ops) key = if op.key = key then some op.entry else findStaged ops key := by
  by_cases h : op.key = key
  · simp [findStaged, h]
  · simp [findStaged, h]

lemma removeStaged_cons (op : StagedOp) (ops : List StagedOp) (key : Key) :
    removeStaged (op :: ops) key =
      if op.key = key then removeStaged ops key else op :: removeStaged ops key := by
  by_cases h : op.key = key
  · simp [removeStaged, h]
  · simp [removeStaged, h]

lemma findStaged_insertStaged (ops : List StagedOp) (op : StagedOp) (key : Key) :
    findStaged (insertStaged ops op) key =
      if key = op.key then some op.entry else findStaged ops key := by
  induction ops with
  | nil =>
    by_cases hkey : key = op.key
    · simp [insertStaged, removeStaged, findStaged, hkey]
    · simp [insertStaged, removeStaged, findStaged, hkey, Ne.symm hkey]
  | cons d ops ih =>
    unfold insertStaged at ih ⊢
    rw [removeStaged_cons, findStaged_cons]
    by_cases hd : d.key = op.key
    · -- the older operation on the key is dropped
      rw [if_pos hd, ih]
      by_cases hkey : key = op.key
      · rw [if_pos hkey, if_pos hkey]
      · rw [if_neg hkey, if_neg hkey, if_neg (fun h => hkey (h.symm.trans hd))]
    · rw [if_neg hd, cons_append, findStaged_cons, ih]
      by_cases hkey : d.key = key
      · rw [if_pos hkey, if_pos hkey, if_neg (fun h => hd (hkey.trans h))]
      · rw [if_neg hkey, if_neg hkey]

/-- What removing a key does to the number of key-set changes. -/
lemma keySetChanges_removeStaged (h : OncePerKey ops) (key : Key) :
    keySetChanges (removeStaged ops key) =
      if (findStaged ops key).any StagedEntry.changesKeySet then keySetChanges ops - 1
      else keySetChanges ops := by
  induction ops with
  | nil => rfl
  | cons op ops ih =>
    have hrest : OncePerKey ops := (nodup_cons.mp h).2
    have hop : op.key ∉ ops.map StagedOp.key := (nodup_cons.mp h).1
    rw [removeStaged_cons, findStaged_cons]
    by_cases hkey : op.key = key
    · -- the head is the operation on the key, and there is no other
      rw [if_pos hkey, if_pos hkey, removeStaged_of_notMem (hkey ▸ hop)]
      cases hc : op.entry.changesKeySet <;> simp [keySetChanges, hc]
    · rw [if_neg hkey, if_neg hkey]
      have ih := ih hrest
      simp only [keySetChanges, countP_cons] at ih ⊢
      rw [ih]
      by_cases hany : (findStaged ops key).any StagedEntry.changesKeySet = true
      · have hpos : 0 < ops.countP (fun d => d.entry.changesKeySet) := by
          obtain ⟨e, he, hce⟩ := (Option.any_eq_true _ _).mp hany
          obtain ⟨d, hd, rfl⟩ := Option.map_eq_some_iff.mp he
          exact countP_pos_iff.mpr ⟨d, mem_of_find?_eq_some hd, hce⟩
        rw [if_pos hany, if_pos hany]
        omega
      · rw [if_neg hany, if_neg hany]

lemma recount_insertStaged (h : OncePerKey ops) (op : StagedOp) :
    recount (keySetChanges ops) (findStaged ops op.key) op.entry =
      keySetChanges (insertStaged ops op) := by
  have hrm := keySetChanges_removeStaged h op.key
  simp only [insertStaged, recount, keySetChanges, countP_append, countP_cons,
    countP_nil, zero_add] at hrm ⊢
  rw [hrm]

lemma keySetChanges_eq_zero : keySetChanges ops = 0 ↔ ∀ d ∈ ops, d.entry.changesKeySet = false := by
  simp [keySetChanges, countP_eq_zero]

namespace DeltaMaps

/-- Between flushes: each key is staged once, nothing is being flushed, and the counters are
exact. -/
structure Settled (d : DeltaMaps) : Prop where
  once : OncePerKey d.pending
  flushing : d.flushing = []
  pendingKeySet : d.pendingKeySet = keySetChanges d.pending
  flushingKeySet : d.flushingKeySet = 0

variable {d : DeltaMaps}

lemma settled_empty : Settled empty := ⟨nodup_nil, rfl, rfl, rfl⟩

lemma Settled.insertPending (h : d.Settled) (op : StagedOp) : (d.insertPending op).Settled where
  once := oncePerKey_insertStaged h.once op
  flushing := h.flushing
  pendingKeySet := by
    show recount d.pendingKeySet _ _ = _
    rw [h.pendingKeySet]
    exact recount_insertStaged h.once op
  flushingKeySet := h.flushingKeySet

lemma Settled.get (h : d.Settled) (key : Key) : d.get key = findStaged d.pending key := by
  have hnone : findStaged d.flushing key = none := by rw [h.flushing]; rfl
  unfold DeltaMaps.get
  rw [hnone]
  cases findStaged d.pending key <;> rfl

/-- The counter is zero exactly when no staged operation is flagged. -/
lemma Settled.treeKeySetLen_eq_zero (h : d.Settled) :
    d.treeKeySetLen = 0 ↔ ∀ op ∈ d.pending, op.entry.changesKeySet = false := by
  rw [treeKeySetLen, h.flushingKeySet, h.pendingKeySet, Nat.add_zero]
  exact keySetChanges_eq_zero

/-- Operations on new keys are added to the `flushing` half one after the other. -/
lemma publishFlushing_spec (ops : List StagedOp) (d : DeltaMaps)
    (hops : OncePerKey (d.flushing ++ ops)) (hcount : d.flushingKeySet = keySetChanges d.flushing) :
    d.publishFlushing ops = { d with
      flushing := d.flushing ++ ops
      flushingKeySet := keySetChanges (d.flushing ++ ops) } := by
  induction ops generalizing d with
  | nil =>
    rw [append_nil, ← hcount]
    rfl
  | cons op ops ih =>
    have hnew : op.key ∉ d.flushing.map StagedOp.key := by
      intro hmem
      rw [OncePerKey, map_append, nodup_append] at hops
      exact hops.2.2 _ hmem op.key (by simp) rfl
    have hfirst : d.publishOne op = { d with
        flushing := d.flushing ++ [op]
        flushingKeySet := keySetChanges (d.flushing ++ [op]) } := by
      have hins : insertStaged d.flushing op = d.flushing ++ [op] := by
        rw [insertStaged, removeStaged_of_notMem hnew]
      have honce : OncePerKey d.flushing := by
        rw [OncePerKey, map_append] at hops
        exact hops.of_append_left
      rw [publishOne, hcount, recount_insertStaged honce, hins]
    show (d.publishOne op).publishFlushing ops = _
    rw [hfirst, ih _ (by simpa using hops) rfl]
    simp

lemma finishFlush_spec (ops : List StagedOp) (d : DeltaMaps) (hops : OncePerKey ops)
    (hflushing : d.flushing = ops) (hcount : d.flushingKeySet = keySetChanges ops) :
    d.finishFlush ops = { d with flushing := [], flushingKeySet := 0 } := by
  induction ops generalizing d with
  | nil =>
    obtain ⟨p, f, pc, fc⟩ := d
    obtain rfl : f = [] := hflushing
    obtain rfl : fc = 0 := hcount
    rfl
  | cons op ops ih =>
    have hnotMem : op.key ∉ ops.map StagedOp.key := (nodup_cons.mp hops).1
    have hfirst : d.removeFlushing op =
        { d with flushing := ops, flushingKeySet := keySetChanges ops } := by
      have hfind : findStaged d.flushing op.key = some op.entry := by
        rw [hflushing, findStaged_cons, if_pos rfl]
      have hrm : removeStaged d.flushing op.key = ops := by
        rw [hflushing, removeStaged_cons, if_pos rfl, removeStaged_of_notMem hnotMem]
      simp only [removeFlushing, hfind, if_true, hrm, hcount]
      cases hc : op.entry.changesKeySet <;> simp [keySetChanges, hc]
    show (d.removeFlushing op).finishFlush ops = _
    rw [hfirst, ih _ (nodup_cons.mp hops).2 rfl rfl]

/-- A flush takes everything that is staged and leaves nothing. -/
theorem Settled.flush (h : d.Settled) :
    d.beginFlushTree.2.finishFlush d.beginFlushTree.1 = empty := by
  have hbegin : d.beginFlushTree.2 =
      { pending := [], flushing := d.pending, pendingKeySet := 0,
        flushingKeySet := keySetChanges d.pending } := by
    show DeltaMaps.publishFlushing _ d.pending = _
    rw [publishFlushing_spec d.pending _ (by simpa [h.flushing] using h.once)
      (by simpa [h.flushing, keySetChanges] using h.flushingKeySet)]
    simp [h.flushing]
  rw [hbegin]
  exact finishFlush_spec d.pending _ h.once rfl rfl

end DeltaMaps

end Tree
end Holt
