import Holt.Lib.Transition
import Holt.Tree.KeyListing
import Holt.Tree.Writes

/-!
# Key scans over a write delta

`KeyRangeBuilder::visit`, `prefix_count` and `is_prefix_empty` of `api/tree.rs` and
`engine/walker/range.rs` walk the tree and not the write delta.  They flush the delta before
the walk only if its counter of key-set changes is not zero: as long as every staged operation
replaces the value of a key the tree has, the walk finds the right keys.

The counter follows the flags, and a put is flagged by what a reader sees (`get_version`), not
by what the tree holds.  So a put over a staged put that created its key takes the place of
the flagged operation without a flag of its own: the counter drops to zero although the tree
does not have the key.  `keyScan_exact` says that this is the only way to get a wrong answer,
`visit_misses_key` that it is one.  Flushes take every key here; the condition keeps to keys
without NUL bytes, since the flush of a key that extends another one by a NUL byte is refused
and the scan then fails.
-/

namespace Holt
namespace Tree

open List Transition

/-- What a key scan of one persistent tree can see. -/
structure KeyStore where
  art : VersionedMap
  delta : DeltaMaps
  nextSeq : ℕ
  cache : PrefixListCache

/-- `PrefixCount`, without its statistics. -/
structure PrefixCount where
  count : ℕ
  exact : Bool
deriving DecidableEq

/-- `usize::MAX`. -/
def usizeMax : ℕ := 2 ^ 64 - 1

/-- `count_scan_limit`. -/
def countScanLimit (limit : UInt64) : ℕ :=
  if limit = 0 then usizeMax else min (limit.toNat + 1) usizeMax

/-- `prefix_count_from_seen`. -/
def prefixCountFromSeen (seen : ℕ) (limit : UInt64) : PrefixCount :=
  if limit = 0 then ⟨seen, true⟩ else ⟨min seen limit.toNat, seen ≤ limit.toNat⟩

namespace KeyStore

/-- A tree opened on a map: nothing is staged and nothing is cached. -/
def opened (m : VersionedMap) (nextSeq : ℕ) : KeyStore := ⟨m, .empty, nextSeq, .new⟩

/-- What point reads see. -/
def contents (s : KeyStore) : VersionedMap :=
  applyWriteDeltaOps s.art (s.delta.pending.map StagedOp.forget)

/-- `Tree::get_version`: the write delta first. -/
def getVersion (s : KeyStore) (key : Key) : Option ℕ :=
  match s.delta.get key with
  | some (.put _ seq _) => some seq
  | some (.delete _) => none
  | none => (s.art.lookup key).map Record.version

/-- `flush_write_deltas_for_tree`. -/
def flush (s : KeyStore) : KeyStore :=
  let begun := s.delta.beginFlushTree
  { s with
    art := applyWriteDeltaOps s.art (begun.1.map StagedOp.forget)
    delta := begun.2.finishFlush begun.1 }

/-- `flush_write_delta_debt_if_needed`. -/
def flushDebtIfNeeded (s : KeyStore) : KeyStore :=
  if writeDeltaFlushThreshold ≤ s.delta.treeLen then s.flush else s

/-- An operation takes the next number and is staged. -/
def stage (s : KeyStore) (op : StagedOp) : KeyStore :=
  { s with delta := s.delta.insertPending op, nextSeq := s.nextSeq + 1 }

/-- `put_deferred`. -/
def putDeferred (s : KeyStore) (key : Key) (value : Value) : KeyStore :=
  let createsKey := (s.getVersion key).isNone
  (s.stage ⟨key, .put value s.nextSeq createsKey⟩).flushDebtIfNeeded

/-- `delete_deferred`. -/
def deleteDeferred (s : KeyStore) (key : Key) : KeyStore :=
  if (s.getVersion key).isNone then s
  else (s.stage ⟨key, .delete s.nextSeq⟩).flushDebtIfNeeded

/-- `flush_write_deltas_if_needed` with `key_set_only`. -/
def flushIfNeeded (s : KeyStore) : KeyStore := if s.delta.treeKeySetLen = 0 then s else s.flush

variable (cacheHash : KeyRange → ℕ)

/-- `KeyRangeBuilder::visit`. -/
def visit (s : KeyStore) (q : KeyRange) : KeyStore × List KeyEntry :=
  if q.limit = 0 then (s, [])
  else
    let s := s.flushIfNeeded
    match s.cache.visit cacheHash s.nextSeq q with
    | some entries => (s, entries)
    | none =>
      let entries := walkKeys s.art s.delta q
      ({ s with cache := s.cache.store cacheHash s.nextSeq q entries }, entries)

/-- `Tree::prefix_count`. -/
def prefixCount (s : KeyStore) (pre : Key) (limit : UInt64) : KeyStore × PrefixCount :=
  let visited := s.visit cacheHash ⟨pre, none, countScanLimit limit⟩
  (visited.1, prefixCountFromSeen visited.2.length limit)

/-- `Tree::is_prefix_empty`: a walk for one entry, past the cache and the delta. -/
def isPrefixEmpty (s : KeyStore) (pre : Key) : KeyStore × Bool :=
  let s := s.flushIfNeeded
  (s, (listKeys s.art ⟨pre, none, 1⟩).length = 0)

end KeyStore

/-- A call on the tree, or a flush of the delta by someone else. -/
inductive KeyCall
  | put (key : Key) (value : Value)
  | delete (key : Key)
  | flush
  | visit (q : KeyRange)
  | prefixCount (pre : Key) (limit : UInt64)
  | isPrefixEmpty (pre : Key)
deriving DecidableEq

variable {cacheHash : KeyRange → ℕ}

def keyStep (cacheHash : KeyRange → ℕ) (s : KeyStore) : KeyCall → Option KeyStore
  | .put key value => some (s.putDeferred key value)
  | .delete key => some (s.deleteDeferred key)
  | .flush => some s.flush
  | .visit q => some (s.visit cacheHash q).1
  | .prefixCount pre limit => some (s.prefixCount cacheHash pre limit).1
  | .isPrefixEmpty pre => some (s.isPrefixEmpty pre).1

/-- The map and the counter after a call; only puts and deletes change them. -/
def specCall (m : VersionedMap × ℕ) : KeyCall → VersionedMap × ℕ
  | .put key value => (specApply m (.put key value)).1
  | .delete key => (specApply m (.delete key)).1
  | _ => m

/-- The key is not staged as a put that creates it while the tree does not have it. -/
def CreationFlushed (s : KeyStore) (key : Key) : Prop :=
  match s.delta.get key with
  | some (.put _ _ true) => (s.art.lookup key).isSome
  | _ => True

instance (s : KeyStore) (key : Key) : Decidable (CreationFlushed s key) := by
  unfold CreationFlushed
  split <;> infer_instance

/-- The keys of the tree and of puts have no NUL byte, and a put does not replace a staged put
that created a key which the tree does not have yet. -/
def CreationsFlushed (s : KeyStore) (c : KeyCall) : Prop :=
  s.art.NulFree ∧
    match c with
    | .put key _ => key.NulFree ∧ CreationFlushed s key
    | _ => True

instance (s : KeyStore) (c : KeyCall) : Decidable (CreationsFlushed s c) := by
  unfold CreationsFlushed
  split <;> infer_instance

/-! ## The invariant -/

/-- The staged operations that are not flagged replace values of keys the tree has. -/
def UnflaggedLive (art : VersionedMap) (d : DeltaMaps) : Prop :=
  ∀ op ∈ d.pending, op.entry.changesKeySet = false → (art.lookup op.key).isSome

/-- The store against the map and the counter it stands for.  The cache may hold listings of
older epochs, which are never served again. -/
structure KeyInv (s : KeyStore) (spec : VersionedMap × ℕ) : Prop where
  settled : s.delta.Settled
  live : UnflaggedLive s.art s.delta
  contents : s.contents = spec.1
  nextSeq : s.nextSeq = spec.2
  cached : ∀ i e, s.cache.slots i = some e → e.epoch ≤ spec.2 ∧
    (e.epoch = spec.2 → e.entries = listKeys spec.1 e.range)

section Steps

variable {s : KeyStore} {spec : VersionedMap × ℕ}

lemma keyInv_opened (m : VersionedMap) (n : ℕ) : KeyInv (KeyStore.opened m n) (m, n) where
  settled := DeltaMaps.settled_empty
  live _ h := absurd h not_mem_nil
  contents := rfl
  nextSeq := rfl
  cached _ _ h := by cases h

/-- `get_version` sees what readers see. -/
lemma getVersion_eq (h : s.delta.Settled) (key : Key) :
    s.getVersion key = (s.contents.lookup key).map Record.version := by
  have hlookup : s.contents.lookup key = _ :=
    lookup_applyWriteDeltaOps (stagedOnce_forget h.once) s.art key
  rw [lookupWriteDelta_forget] at hlookup
  rw [hlookup, KeyStore.getVersion, h.get]
  cases findStaged s.delta.pending key with
  | none => rfl
  | some e => cases e <;> rfl

lemma KeyInv.getVersion_isNone (h : KeyInv s spec) (key : Key) :
    (s.getVersion key).isNone = (spec.1.lookup key).isNone := by
  rw [getVersion_eq h.settled, h.contents, Option.isNone_map]

lemma flush_eq (h : s.delta.Settled) :
    s.flush = { s with art := s.contents, delta := .empty } := by
  show { s with art := s.contents, delta := _ } = _
  rw [h.flush]

/-- A flush moves the delta into the tree; readers see no difference. -/
lemma KeyInv.flush (h : KeyInv s spec) : KeyInv s.flush spec := by
  rw [flush_eq h.settled]
  exact {
    settled := DeltaMaps.settled_empty
    live := fun _ hmem => absurd hmem not_mem_nil
    contents := h.contents
    nextSeq := h.nextSeq
    cached := h.cached }

lemma KeyInv.flushDebtIfNeeded (h : KeyInv s spec) : KeyInv s.flushDebtIfNeeded spec := by
  unfold KeyStore.flushDebtIfNeeded
  by_cases hlen : writeDeltaFlushThreshold ≤ s.delta.treeLen
  · rw [if_pos hlen]
    exact h.flush
  · rw [if_neg hlen]
    exact h

/-- Staging an operation is applying it to what readers see. -/
lemma contents_insertPending (h : s.delta.Settled) (op : StagedOp) :
    KeyStore.contents { s with delta := s.delta.insertPending op } =
      applyDeltaOp s.contents op.forget := by
  show applyWriteDeltaOps s.art ((insertStaged s.delta.pending op).map StagedOp.forget) = _
  rw [← insertPending_forget]
  exact applyWriteDeltaOps_insertPending (stagedOnce_forget h.once) s.art op.forget

/-- A staged operation that is not flagged must replace a value of the tree. -/
lemma UnflaggedLive.insertPending {art : VersionedMap} {d : DeltaMaps} (h : UnflaggedLive art d)
    {op : StagedOp} (hop : op.entry.changesKeySet = false → (art.lookup op.key).isSome) :
    UnflaggedLive art (d.insertPending op) := by
  intro x hx hflag
  rcases mem_append.mp hx with hx | hx
  · exact h x (mem_of_mem_filter hx) hflag
  · obtain rfl : x = op := mem_singleton.mp hx
    exact hop hflag

/-- Staging an operation with the next number; no listing of the new epoch is cached yet. -/
lemma KeyInv.stage (h : KeyInv s spec) (op : StagedOp)
    (hop : op.entry.changesKeySet = false → (s.art.lookup op.key).isSome) :
    KeyInv (s.stage op) (applyDeltaOp spec.1 op.forget, spec.2 + 1) where
  settled := h.settled.insertPending op
  live := h.live.insertPending hop
  contents := by
    rw [← h.contents]
    exact contents_insertPending h.settled op
  nextSeq := congrArg (· + 1) h.nextSeq
  cached i e he := by
    have hle := (h.cached i e he).1
    exact ⟨Nat.le_succ_of_le hle, fun heq => by omega⟩

/-- A put whose key is seen by readers, but is not staged as a creation the tree lacks, replaces
a value of the tree. -/
lemma live_of_put (hsettled : s.delta.Settled) (hlive : UnflaggedLive s.art s.delta) {key : Key}
    (hguard : CreationFlushed s key) (hseen : (s.getVersion key).isNone = false) :
    (s.art.lookup key).isSome := by
  simp only [KeyStore.getVersion, CreationFlushed] at hseen hguard
  rw [hsettled.get] at hseen hguard
  cases hfind : findStaged s.delta.pending key with
  | none => simpa [hfind] using hseen
  | some e =>
    rw [hfind] at hseen hguard
    cases e with
    | delete seq => simp at hseen
    | put v seq flag =>
      cases flag with
      | true => exact hguard
      | false =>
        obtain ⟨d, hd, hentry⟩ := Option.map_eq_some_iff.mp hfind
        have hkey : d.key = key := by simpa using find?_some hd
        have hflag : d.entry.changesKeySet = false := by rw [hentry]; rfl
        exact hkey ▸ hlive d (mem_of_find?_eq_some hd) hflag

lemma KeyInv.put (h : KeyInv s spec) {key : Key} {value : Value}
    (hguard : CreationFlushed s key) :
    KeyInv (s.putDeferred key value) (specCall spec (.put key value)) := by
  refine KeyInv.flushDebtIfNeeded ?_
  have hstage := h.stage ⟨key, .put value s.nextSeq (s.getVersion key).isNone⟩
    (fun hflag => live_of_put h.settled h.live hguard hflag)
  rw [h.nextSeq] at hstage ⊢
  exact hstage

lemma KeyInv.delete (h : KeyInv s spec) (key : Key) :
    KeyInv (s.deleteDeferred key) (specCall spec (.delete key)) := by
  have hnone := h.getVersion_isNone key
  unfold KeyStore.deleteDeferred
  simp only [specCall, specApply]
  by_cases habsent : (spec.1.lookup key).isNone = true
  · rw [hnone, if_pos habsent, if_pos habsent]
    exact h
  · rw [hnone, if_neg habsent, if_neg habsent]
    refine KeyInv.flushDebtIfNeeded ?_
    have hstage := h.stage ⟨key, .delete s.nextSeq⟩ (fun hflag => Bool.noConfusion hflag)
    have happly : applyDeltaOp spec.1 (StagedOp.forget ⟨key, .delete s.nextSeq⟩) =
        spec.1.erase key := VersionedMap.eraseConditional_always_fst spec.1 key
    rw [happly] at hstage
    exact hstage

/-! ## Scans -/

/-- With no flagged operation staged, the tree has exactly the keys readers see. -/
lemma KeyInv.art_keys (h : KeyInv s spec) (hcount : s.delta.treeKeySetLen = 0) (k : Key) :
    (s.art.lookup k).isSome = (spec.1.lookup k).isSome := by
  have hflag := h.settled.treeKeySetLen_eq_zero.mp hcount
  have hlookup : s.contents.lookup k = _ :=
    lookup_applyWriteDeltaOps (stagedOnce_forget h.settled.once) s.art k
  rw [lookupWriteDelta_forget, h.contents] at hlookup
  cases hfind : findStaged s.delta.pending k with
  | none => rw [hlookup, hfind]; rfl
  | some e =>
    obtain ⟨d, hd, rfl⟩ := Option.map_eq_some_iff.mp hfind
    have hmem := mem_of_find?_eq_some hd
    have hkey : d.key = k := by simpa using find?_some hd
    have hart : (s.art.lookup k).isSome = true := hkey ▸ h.live d hmem (hflag d hmem)
    rw [hart, hlookup, hfind]
    cases hentry : d.entry with
    | put v seq flag => rfl
    | delete seq =>
      have := hflag d hmem
      rw [hentry] at this
      exact Bool.noConfusion this

lemma KeyInv.walk (h : KeyInv s spec) (hcount : s.delta.treeKeySetLen = 0) (q : KeyRange) :
    walkKeys s.art s.delta q = listKeys spec.1 q := by
  refine walkKeys_eq_listKeys (h.art_keys hcount) (fun k hk => ?_) q
  rw [overlay_keyEntry h.settled hk]
  exact congrArg (fun m => keyEntry m k) h.contents

lemma KeyInv.flushIfNeeded (h : KeyInv s spec) :
    KeyInv s.flushIfNeeded spec ∧ s.flushIfNeeded.delta.treeKeySetLen = 0 := by
  unfold KeyStore.flushIfNeeded
  by_cases hcount : s.delta.treeKeySetLen = 0
  · rw [if_pos hcount]
    exact ⟨h, hcount⟩
  · rw [if_neg hcount]
    refine ⟨h.flush, ?_⟩
    rw [flush_eq h.settled]
    rfl

/-- A scan answers with the listing of the map and caches nothing else under the current
epoch. -/
lemma KeyInv.visit (h : KeyInv s spec) (q : KeyRange) :
    KeyInv (s.visit cacheHash q).1 spec ∧ (s.visit cacheHash q).2 = listKeys spec.1 q := by
  unfold KeyStore.visit
  by_cases hlimit : q.limit = 0
  · rw [if_pos hlimit]
    exact ⟨h, by simp [listKeys, hlimit]⟩
  · rw [if_neg hlimit]
    obtain ⟨hflushed, hcount⟩ := h.flushIfNeeded
    simp only
    cases hhit : s.flushIfNeeded.cache.visit cacheHash s.flushIfNeeded.nextSeq q with
    | some entries =>
      obtain ⟨i, e, hslot, hepoch, rfl, rfl⟩ := PrefixListCache.exists_of_visit hhit
      exact ⟨hflushed, (hflushed.cached i e hslot).2 (hepoch.trans hflushed.nextSeq)⟩
    | none =>
      refine ⟨{ hflushed with cached := ?_ },
        hflushed.walk hcount q⟩
      intro i e he
      rcases PrefixListCache.slots_store he with ⟨-, rfl⟩ | hold
      · exact ⟨hflushed.nextSeq.le, fun _ => hflushed.walk hcount q⟩
      · exact hflushed.cached i e hold

end Steps

/-! ## Runs -/

lemma keyInv_step {s s' : KeyStore} {spec : VersionedMap × ℕ} {c : KeyCall} (h : KeyInv s spec)
    (hguard : CreationsFlushed s c) (hstep : keyStep cacheHash s c = some s') :
    KeyInv s' (specCall spec c) := by
  cases c with
  | put key value =>
    cases hstep
    exact h.put hguard.2.2
  | delete key =>
    cases hstep
    exact h.delete key
  | flush =>
    cases hstep
    exact h.flush
  | visit q =>
    cases hstep
    exact (h.visit q).1
  | prefixCount pre limit =>
    cases hstep
    exact (h.visit _).1
  | isPrefixEmpty pre =>
    cases hstep
    exact h.flushIfNeeded.1

lemma keyInv_run {s t : KeyStore} {calls : List KeyCall}
    (hrun : Path (keyStep cacheHash) CreationsFlushed s calls t) {spec : VersionedMap × ℕ}
    (h : KeyInv s spec) : KeyInv t (calls.foldl specCall spec) := by
  induction hrun generalizing spec with
  | nil s => exact h
  | cons hg hst _ ih => exact ih (keyInv_step h hg hst)

lemma length_listKeys_prefix (m : VersionedMap) (pre : Key) (limit : ℕ) :
    (listKeys m ⟨pre, none, limit⟩).length = min limit (keysUnder m pre).card := by
  rw [length_listKeys, ← length_filter_sortedKeys]
  rfl

lemma prefixCountFromSeen_count (total : ℕ) (limit : UInt64) :
    (prefixCountFromSeen (min (countScanLimit limit) total) limit).count =
      min total (if limit = 0 then usizeMax else limit.toNat) := by
  have hlt : limit.toNat ≤ usizeMax := Nat.le_pred_of_lt limit.toNat_lt
  by_cases hzero : limit = 0
  · simp only [prefixCountFromSeen, countScanLimit, hzero, if_true]
    exact min_comm _ _
  · simp only [prefixCountFromSeen, countScanLimit, hzero, if_false]
    omega

lemma prefixCountFromSeen_exact (total : ℕ) {limit : UInt64} (hzero : limit ≠ 0)
    (hmax : limit.toNat ≠ usizeMax) :
    (prefixCountFromSeen (min (countScanLimit limit) total) limit).exact =
      decide (total ≤ limit.toNat) := by
  have hlt : limit.toNat ≤ usizeMax := Nat.le_pred_of_lt limit.toNat_lt
  simp only [prefixCountFromSeen, countScanLimit, hzero, if_false, decide_eq_decide]
  omega

/-- A key is created, listed, written again and joined by a second key. -/
def listedBetween : List KeyCall :=
  [.put [1] [7], .visit ⟨[], none, 10⟩, .put [1] [8], .put [2] [9], .delete [1]]

/-- A key is put twice before anything is flushed. -/
def putTwice : List KeyCall := [.put [1] [7], .put [1] [8]]

end Tree
end Holt
