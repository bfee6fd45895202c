import Holt.Tree.VersionedMap

/-!
# The write delta

A persistent tree logs a `put` or `delete` and stages it in `store/buffer_manager/write_delta.rs`
instead of changing the tree; a flush applies the staged operations later.  `get` prefers the
delta to the tree, so what a reader sees is the tree with the delta applied: `contents`.

The map of the source from keys to staged operations is a list here, with one operation per
key; the order in which a flush applies operations on different keys has no effect.  The
`flushing` half of the source's delta is empty between critical sections, since one gate-held
section takes the operations out, applies them and drops them.  `creates_key` only tells key
scans when to flush and is left out.
-/

namespace Holt
namespace Tree

open List

/-- A staged operation on one key. -/
inductive DeltaEntry
  | put (value : Value) (seq : ℕ)
  | delete (seq : ℕ)
deriving DecidableEq

structure DeltaOp where
  key : Key
  entry : DeltaEntry
deriving DecidableEq

/-- The record a staged operation leaves under its key. -/
def DeltaEntry.record : DeltaEntry → Option Record
  | .put value seq => some ⟨value, seq⟩
  | .delete _ => none

/-- `DeltaEntry::seq`. -/
def DeltaEntry.seq : DeltaEntry → ℕ
  | .put _ seq | .delete seq => seq

/-- `DeltaMaps::insert_pending`: the latest operation on a key replaces an older one. -/
def insertPending (pending : List DeltaOp) (op : DeltaOp) : List DeltaOp :=
  pending.filter (fun d => d.key ≠ op.key) ++ [op]

/-- `WriteDelta::get`. -/
def lookupWriteDelta (pending : List DeltaOp) (key : Key) : Option DeltaEntry :=
  (pending.find? (fun d => d.key = key)).map DeltaOp.entry

/-- One arm of `apply_write_delta_ops_inner`. -/
def applyDeltaOp (art : VersionedMap) (op : DeltaOp) : VersionedMap :=
  match op.entry with
  | .put value seq => (art.insertConditional op.key value seq .always).1
  | .delete _ => (art.eraseConditional op.key .always).1

/-- `apply_write_delta_ops`. -/
def applyWriteDeltaOps (art : VersionedMap) (ops : List DeltaOp) : VersionedMap :=
  ops.foldl applyDeltaOp art

/-! ## Lookups through the delta -/

lemma lookup_applyDeltaOp (art : VersionedMap) (op : DeltaOp) (k : Key) :
    (applyDeltaOp art op).lookup k = if k = op.key then op.entry.record else art.lookup k := by
  unfold applyDeltaOp
  cases op.entry with
  | put value seq =>
    simp only [VersionedMap.insertConditional_always, DeltaEntry.record]
    exact VersionedMap.lookup_insert_eq art op.key k ⟨value, seq⟩
  | delete seq =>
    simp only [DeltaEntry.record, VersionedMap.eraseConditional_always_fst]
    exact VersionedMap.lookup_erase_eq art op.key k

/-- Each key is staged once. -/
def StagedOnce (pending : List DeltaOp) : Prop := (pending.map DeltaOp.key).Nodup

variable {pending : List DeltaOp} {key : Key}

lemma lookupWriteDelta_eq_none :
    lookupWriteDelta pending key = none ↔ ∀ d ∈ pending, d.key ≠ key := by
  simp [lookupWriteDelta, find?_eq_none]

variable (h : StagedOnce pending)
include h

lemma stagedOnce_insertPending (op : DeltaOp) :
    StagedOnce (insertPending pending op) := by
  unfold StagedOnce insertPending
  rw [map_append, nodup_append]
  refine ⟨h.sublist (filter_sublist.map _), by simp, ?_⟩
  rintro x hx y hy rfl
  obtain ⟨d, hd, rfl⟩ := List.mem_map.mp hx
  have hne := (mem_filter.mp hd).2
  simp only [map_cons, map_nil, mem_singleton] at hy
  simp [hy] at hne

/-- What a reader sees under a key: the staged operation if there is one. -/
theorem lookup_applyWriteDeltaOps (art : VersionedMap) (k : Key) :
    (applyWriteDeltaOps art pending).lookup k =
      match lookupWriteDelta pending k with
      | some entry => entry.record
      | none => art.lookup k := by
  induction pending generalizing art with
  | nil => rfl
  | cons op rest ih =>
    have hrest : StagedOnce rest := (nodup_cons.mp h).2
    have hop : ∀ d ∈ rest, d.key ≠ op.key := by
      intro d hd heq
      exact (nodup_cons.mp h).1 (heq ▸ List.mem_map_of_mem hd)
    have hstep : applyWriteDeltaOps art (op :: rest) =
    applyWriteDeltaOps (applyDeltaOp art op) rest :=
      rfl
    rw [hstep, ih hrest, lookup_applyDeltaOp]
    rcases eq_or_ne k op.key with rfl | hk
    · rw [lookupWriteDelta_eq_none.mpr hop]
      simp [lookupWriteDelta]
    · simp [lookupWriteDelta, Ne.symm hk, hk]

omit h in
lemma lookupWriteDelta_insertPending (pending : List DeltaOp) (op : DeltaOp) (k : Key) :
    lookupWriteDelta (insertPending pending op) k =
      if k = op.key then some op.entry else lookupWriteDelta pending k := by
  induction pending with
  | nil =>
    rcases eq_or_ne k op.key with rfl | hk
    · simp [lookupWriteDelta, insertPending]
    · simp [lookupWriteDelta, insertPending, hk, hk.symm]
  | cons d rest ih =>
    simp only [lookupWriteDelta, insertPending] at ih ⊢
    rcases eq_or_ne d.key op.key with hd | hd
    · -- the older operation on the key is dropped
      rcases eq_or_ne k op.key with rfl | hk
      · simpa [hd] using ih
      · simpa [hd, hk, hk.symm] using ih
    · rcases eq_or_ne d.key k with rfl | hdk
      · simp [hd]
      · simpa [hd, hdk] using ih

/-- Staging an operation is applying it to what readers see. -/
lemma applyWriteDeltaOps_insertPending (art : VersionedMap) (op : DeltaOp) :
    applyWriteDeltaOps art (insertPending pending op) =
      applyDeltaOp (applyWriteDeltaOps art pending) op := by
  refine Finmap.ext_lookup (fun k => ?_)
  rw [lookup_applyWriteDeltaOps (stagedOnce_insertPending h op), lookup_applyDeltaOp,
    lookupWriteDelta_insertPending, lookup_applyWriteDeltaOps h]
  split_ifs <;> rfl

/-- A direct insert under a key that is not staged is seen by readers. -/
lemma applyWriteDeltaOps_insert (hkey : ∀ d ∈ pending, d.key ≠ key) (art : VersionedMap)
    (r : Record) :
    applyWriteDeltaOps (art.insert key r) pending =
    (applyWriteDeltaOps art pending).insert key r := by
  refine Finmap.ext_lookup (fun k => ?_)
  rw [lookup_applyWriteDeltaOps h, VersionedMap.lookup_insert_eq, VersionedMap.lookup_insert_eq,
    lookup_applyWriteDeltaOps h]
  split_ifs with hk
  · rw [hk, lookupWriteDelta_eq_none.mpr hkey]
  · rfl

/-- A direct erase under a key that is not staged is seen by readers. -/
lemma applyWriteDeltaOps_erase (hkey : ∀ d ∈ pending, d.key ≠ key) (art : VersionedMap) :
    applyWriteDeltaOps (art.erase key) pending = (applyWriteDeltaOps art pending).erase key := by
  refine Finmap.ext_lookup (fun k => ?_)
  rw [lookup_applyWriteDeltaOps h, VersionedMap.lookup_erase_eq, VersionedMap.lookup_erase_eq,
    lookup_applyWriteDeltaOps h]
  split_ifs with hk
  · rw [hk, lookupWriteDelta_eq_none.mpr hkey]
  · rfl

/-- Readers see the tree's own record under a key that is not staged. -/
lemma lookup_applyWriteDeltaOps_of_unstaged (hkey : ∀ d ∈ pending, d.key ≠ key)
    (art : VersionedMap) :
    (applyWriteDeltaOps art pending).lookup key = art.lookup key := by
  rw [lookup_applyWriteDeltaOps h, lookupWriteDelta_eq_none.mpr hkey]

end Tree
end Holt
