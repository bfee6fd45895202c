import Mathlib.Data.Finset.Sort
import Mathlib.Data.List.Sort
import Mathlib.Data.List.Lex
import Holt.Tree.DeltaMaps

/-!
# Key listings

A key scan lists the keys under a prefix and past `start_after` in byte order, each with its
version, up to a limit.  `listKeys m q` is that listing for a versioned map.  The code gets it
by walking the tree and passing every entry through the write delta (`overlay_key_entry`);
that the walk of the tree itself meets `listKeys` is the business of the cursor, here the tree
is the map it stands for.

`PrefixListCache` keeps finished listings in 256 slots, addressed by a hash of the query, each
with the sequence counter (the epoch) it was taken at.  The hash is `std`'s and stays a
parameter.  Listings with a delimiter are not part of this module.
-/

namespace Holt

open List

/-- Bytes in their numeric order, so that keys are in byte order. -/
instance instLinearOrderByte : LinearOrder UInt8 where
  le_refl := UInt8.le_refl
  le_trans _ _ _ := UInt8.le_trans
  le_antisymm _ _ := UInt8.le_antisymm
  le_total := UInt8.le_total
  lt_iff_le_not_ge a b := by
    simp only [UInt8.lt_iff_toNat_lt, UInt8.le_iff_toNat_le]
    omega
  toDecidableLE := inferInstance
  toDecidableLT := inferInstance

/-- The keys of a map in byte order. -/
def VersionedMap.sortedKeys (m : VersionedMap) : List Key :=
  Quot.liftOn m.keys.val (fun l => l.insertionSort (· ≤ ·)) fun a b h =>
    List.Perm.eq_of_pairwise (fun _ _ _ _ => le_antisymm) (List.pairwise_insertionSort _ a)
      (List.pairwise_insertionSort _ b)
      (((List.perm_insertionSort _ a).trans h).trans (List.perm_insertionSort _ b).symm)

namespace VersionedMap

lemma sortedKeys_eq_sort (m : VersionedMap) : m.sortedKeys = m.keys.sort (· ≤ ·) := by
  refine List.Perm.eq_of_pairwise (fun _ _ _ _ => le_antisymm) ?_ (Finset.pairwise_sort _ _) ?_
  · unfold sortedKeys
    induction m.keys.val using Quot.ind with
    | mk l => exact pairwise_insertionSort _ l
  · rw [← Multiset.coe_eq_coe, Finset.sort_eq]
    unfold sortedKeys
    induction m.keys.val using Quot.ind with
    | mk l => exact Multiset.coe_eq_coe.mpr (perm_insertionSort _ l)

@[simp] lemma mem_sortedKeys {m : VersionedMap} {k : Key} :
    k ∈ m.sortedKeys ↔ (m.lookup k).isSome := by
  rw [sortedKeys_eq_sort, Finset.mem_sort, Finmap.mem_keys, Finmap.lookup_isSome]

lemma sortedKeys_congr {m m' : VersionedMap}
    (h : ∀ k, (m.lookup k).isSome = (m'.lookup k).isSome) : m.sortedKeys = m'.sortedKeys := by
  have hkeys : m.keys = m'.keys := by
    ext k
    rw [Finmap.mem_keys, Finmap.mem_keys, ← Finmap.lookup_isSome, ← Finmap.lookup_isSome, h k]
  rw [sortedKeys_eq_sort, sortedKeys_eq_sort, hkeys]

end VersionedMap

namespace Tree

/-- The query of a `KeyRangeBuilder` without a delimiter. -/
structure KeyRange where
  pre : Key
  startAfter : Option Key
  limit : ℕ
deriving DecidableEq

def KeyRange.contains (q : KeyRange) (k : Key) : Bool :=
  q.pre.isPrefixOf k && q.startAfter.all (fun a => decide (a < k))

/-- `KeyRangeEntryRef::Key`. -/
structure KeyEntry where
  key : Key
  version : ℕ
deriving DecidableEq

/-- The entry a map has under a key. -/
def keyEntry (m : VersionedMap) (k : Key) : Option KeyEntry :=
  (m.lookup k).map (fun r => ⟨k, r.version⟩)

/-- The first keys of the range in byte order, with their versions. -/
def listKeys (m : VersionedMap) (q : KeyRange) : List KeyEntry :=
  ((m.sortedKeys.filter q.contains).take q.limit).filterMap (keyEntry m)

/-- The keys under a prefix. -/
def keysUnder (m : VersionedMap) (pre : Key) : Finset Key :=
  m.keys.filter (fun k => pre.isPrefixOf k)

/-- `overlay_key_entry`: the delta's version, nothing for a staged delete. -/
def overlayKeyEntry (d : DeltaMaps) (e : KeyEntry) : Option KeyEntry :=
  match d.get e.key with
  | some (.put _ seq _) => some ⟨e.key, seq⟩
  | some (.delete _) => none
  | none => some e

/-- The walk of `visit_with_projection`: up to `limit` entries of the tree, through the
delta. -/
def walkKeys (art : VersionedMap) (d : DeltaMaps) (q : KeyRange) : List KeyEntry :=
  (listKeys art q).filterMap (overlayKeyEntry d)

lemma length_listKeys (m : VersionedMap) (q : KeyRange) :
    (listKeys m q).length = min q.limit (m.sortedKeys.filter q.contains).length := by
  have hall : ∀ k ∈ (m.sortedKeys.filter q.contains).take q.limit, (keyEntry m k).isSome := by
    intro k hk
    have hmem : k ∈ m.sortedKeys := (mem_filter.mp (mem_of_mem_take hk)).1
    simpa [keyEntry] using hmem
  rw [listKeys, length_filterMap_eq_countP, countP_eq_length.mpr hall, length_take]

lemma length_filter_sortedKeys (m : VersionedMap) (pre : Key) :
    (m.sortedKeys.filter (KeyRange.contains ⟨pre, none, 0⟩)).length = (keysUnder m pre).card := by
  have hfilter : m.sortedKeys.filter (KeyRange.contains ⟨pre, none, 0⟩) =
      m.sortedKeys.filter (fun k => pre.isPrefixOf k) :=
    filter_congr fun k _ => Bool.and_true _
  have hnodup : (m.sortedKeys.filter (fun k => pre.isPrefixOf k)).Nodup := by
    rw [VersionedMap.sortedKeys_eq_sort]
    exact (Finset.sort_nodup _ _).filter _
  have hset : (m.sortedKeys.filter (fun k => pre.isPrefixOf k)).toFinset = keysUnder m pre := by
    ext k
    simp [keysUnder, Finmap.lookup_isSome, Finmap.mem_keys]
  rw [hfilter, ← toFinset_card_of_nodup hnodup, hset]

/-! ## The walk through the delta -/

/-- The entry of a key of the tree is, through the delta, its entry in what readers see. -/
lemma overlay_keyEntry {d : DeltaMaps} (h : d.Settled) {art : VersionedMap} {k : Key}
    (hk : (art.lookup k).isSome) :
    (keyEntry art k).bind (overlayKeyEntry d) =
      keyEntry (applyWriteDeltaOps art (d.pending.map StagedOp.forget)) k := by
  obtain ⟨r, hr⟩ := Option.isSome_iff_exists.mp hk
  have hlookup := lookup_applyWriteDeltaOps (stagedOnce_forget h.once) art k
  rw [lookupWriteDelta_forget] at hlookup
  simp only [keyEntry, hr, Option.map_some, Option.bind_some, overlayKeyEntry, h.get, hlookup]
  cases findStaged d.pending k with
  | none => simp
  | some e =>
    cases e with
    | put value seq flag => rfl
    | delete seq => rfl

/-- The walk lists any map that has the keys of the tree, with the entries the delta gives
them. -/
theorem walkKeys_eq_listKeys {d : DeltaMaps} {art m : VersionedMap}
    (hkeys : ∀ k, (art.lookup k).isSome = (m.lookup k).isSome)
    (hover : ∀ k, (art.lookup k).isSome → (keyEntry art k).bind (overlayKeyEntry d) = keyEntry m k)
    (q : KeyRange) : walkKeys art d q = listKeys m q := by
  unfold walkKeys listKeys
  rw [filterMap_filterMap, VersionedMap.sortedKeys_congr hkeys]
  refine filterMap_congr fun k hk => hover k ?_
  have hmem : k ∈ m.sortedKeys := (mem_filter.mp (mem_of_mem_take hk)).1
  rw [hkeys k]
  exact VersionedMap.mem_sortedKeys.mp hmem

/-! ## The cache of listings -/

/-- `PrefixListCacheEntry`. -/
structure PrefixListCacheEntry where
  hash : ℕ
  epoch : ℕ
  range : KeyRange
  entries : List KeyEntry
deriving DecidableEq

/-- `PREFIX_LIST_CACHE_MAX_LIMIT`. -/
def prefixListCacheMaxLimit : ℕ := 256

/-- `PREFIX_LIST_CACHE_SLOTS`. -/
def prefixListCacheSlots : ℕ := 256

/-- `PrefixListCache::cacheable_limit`. -/
def cacheableLimit (limit : ℕ) : Bool := limit ≠ 0 ∧ limit ≤ prefixListCacheMaxLimit

/-- `PrefixListCache`. -/
structure PrefixListCache where
  slots : ℕ → Option PrefixListCacheEntry

namespace PrefixListCache

/-- `PrefixListCache::new`. -/
def new : PrefixListCache := ⟨fun _ => none⟩

variable (cacheHash : KeyRange → ℕ)

/-- `slot_index`. -/
def slotIndex (hash : ℕ) : ℕ := hash % prefixListCacheSlots

/-- `PrefixListCache::visit`. -/
def visit (cache : PrefixListCache) (epoch : ℕ) (q : KeyRange) : Option (List KeyEntry) :=
  if cacheableLimit q.limit then
    match cache.slots (slotIndex (cacheHash q)) with
    | none => none
    | some entry =>
      if entry.hash = cacheHash q ∧ entry.epoch = epoch ∧ entry.range = q then some entry.entries
      else none
  else none

/-- `PrefixListCache::store`. -/
def store (cache : PrefixListCache) (epoch : ℕ) (q : KeyRange) (entries : List KeyEntry) :
    PrefixListCache :=
  if cacheableLimit q.limit then
    ⟨Function.update cache.slots (slotIndex (cacheHash q)) (some ⟨cacheHash q, epoch, q, entries⟩)⟩
  else cache

variable {cacheHash}

lemma exists_of_visit {cache : PrefixListCache} {epoch : ℕ} {q : KeyRange} {l : List KeyEntry}
    (h : cache.visit cacheHash epoch q = some l) :
    ∃ i entry, cache.slots i = some entry ∧ entry.epoch = epoch ∧ entry.range = q ∧
      entry.entries = l := by
  unfold visit at h
  by_cases hl : cacheableLimit q.limit = true
  · rw [if_pos hl] at h
    cases hslot : cache.slots (slotIndex (cacheHash q)) with
    | none => simp [hslot] at h
    | some entry =>
      simp only [hslot, Option.ite_none_right_eq_some, Option.some.injEq] at h
      exact ⟨_, entry, hslot, h.1.2.1, h.1.2.2, h.2⟩
  · rw [if_neg hl] at h
    cases h

/-- What a slot holds after a store: the new listing or what it held before. -/
lemma slots_store {cache : PrefixListCache} {epoch : ℕ} {q : KeyRange} {l : List KeyEntry}
    {i : ℕ} {entry : PrefixListCacheEntry}
    (h : (cache.store cacheHash epoch q l).slots i = some entry) :
    (cacheableLimit q.limit ∧ entry = ⟨cacheHash q, epoch, q, l⟩) ∨
      cache.slots i = some entry := by
  unfold store at h
  by_cases hl : cacheableLimit q.limit = true
  · rw [if_pos hl] at h
    simp only at h
    by_cases hi : i = slotIndex (cacheHash q)
    · subst hi
      rw [Function.update_self] at h
      exact .inl ⟨hl, (Option.some.inj h).symm⟩
    · rw [Function.update_of_ne hi] at h
      exact .inr h
  · rw [if_neg hl] at h
    exact .inr h

end PrefixListCache

end Tree
end Holt
