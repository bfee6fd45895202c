import Holt.Tree.WriteDelta

/-!
# Atomic batches

`Tree::apply_batch` checks a batch before it applies it: `preflight_batch` walks the
operations over an overlay of the records they would leave, reading through the write delta,
and only if every guard holds does `apply_batch_walker_inline` run the operations on the tree
itself, where a guard that fails is an internal error and closes the store.

`specBatch` is what a batch means on a versioned map.  `preflightBatch_eq` says that the
preflight decides exactly that, and `applies_batch` that a batch that passes is applied
as specified and logged so that replaying its record does the same, both as long as no
operation on a key of the batch is staged.
-/

namespace Holt
namespace Tree

open List

/-- The errors a write can return. -/
inductive Error
  | notFound
  | dstExists
  | internal
  | failedClosed
deriving DecidableEq

/-- One operation of an atomic batch. -/
inductive BatchOp
  | put (key : Key) (value : Value)
  | putIfAbsent (key : Key) (value : Value)
  | compareAndPut (key : Key) (expected : ℕ) (value : Value)
  | delete (key : Key)
  | deleteIfVersion (key : Key) (expected : ℕ)
  | assertVersion (key : Key) (expected : ℕ)
  | assertAbsent (key : Key)
  | assertPrefixEmpty (pre : Key)
  | rename (src dst : Key) (force : Bool)
deriving DecidableEq

/-- `BatchOp::emits_wal`: assertions are neither logged nor numbered. -/
def BatchOp.emitsWal : BatchOp → Bool
  | .assertVersion _ _ | .assertAbsent _ | .assertPrefixEmpty _ => false
  | _ => true

/-- The keys whose records an operation reads or writes. -/
def BatchOp.touches (key : Key) : BatchOp → Bool
  | .put k _ | .putIfAbsent k _ | .compareAndPut k _ _ | .delete k | .deleteIfVersion k _
  | .assertVersion k _ | .assertAbsent k => key = k
  | .assertPrefixEmpty pre => pre.isPrefixOf key
  | .rename src dst _ => key = src ∨ key = dst

/-- The key under which an operation inserts a record. -/
def BatchOp.inserts : BatchOp → Option Key
  | .put key _ | .putIfAbsent key _ | .compareAndPut key _ _ | .rename _ key _ => some key
  | _ => none

/-- The sequence number after an operation numbered `seq`. -/
def BatchOp.nextSeq (op : BatchOp) (seq : ℕ) : ℕ := if op.emitsWal then seq + 1 else seq

/-- A logged operation. -/
inductive WalOp
  | insert (key : Key) (value : Value)
  | erase (key : Key)
  | rename (src dst : Key) (force : Bool)
deriving DecidableEq

/-- The key under which a logged operation inserts a record. -/
def WalOp.inserts : WalOp → Option Key
  | .insert key _ | .rename _ key _ => some key
  | .erase _ => none

/-! ## Preflight -/

/-- `BatchOverlay`: the records the batch's earlier operations would leave. -/
abbrev BatchOverlay := Finmap (fun _ : Key => Option Record)

section Preflight

variable (art : VersionedMap) (pending : List DeltaOp)

/-- `lookup_record_unlocked`. -/
def lookupRecordUnlocked (key : Key) : Option Record :=
  match lookupWriteDelta pending key with
  | some entry => entry.record
  | none => art.lookup key

/-- `projected_record`. -/
def projectedRecord (overlay : BatchOverlay) (key : Key) : Option Record :=
  match overlay.lookup key with
  | some record => record
  | none => lookupRecordUnlocked art pending key

/-- `base_prefix_empty`: a scan of the tree. -/
def basePrefixEmpty (pre : Key) : Bool := decide (∀ k ∈ art.keys, pre.isPrefixOf k = false)

/-- `projected_prefix_empty`. -/
def projectedPrefixEmpty (overlay : BatchOverlay) (pre : Key) : Bool :=
  if overlay.keys = ∅ then basePrefixEmpty art pre
  else if ∃ k ∈ overlay.keys, (overlay.lookup k).join.isSome ∧ pre.isPrefixOf k then false
  else decide (∀ k ∈ art.keys, pre.isPrefixOf k = true → overlay.lookup k = some none)

/-- `preflight_batch_op`: the overlay afterwards, or `none` if a guard fails. -/
def preflightBatchOp (overlay : BatchOverlay) (seq : ℕ) :
    BatchOp → Except Error (Option BatchOverlay)
  | .put key value => .ok (some (overlay.insert key (some ⟨value, seq⟩)))
  | .putIfAbsent key value =>
    .ok (if (projectedRecord art pending overlay key).isSome then none
      else some (overlay.insert key (some ⟨value, seq⟩)))
  | .compareAndPut key expected value =>
    .ok (if (projectedRecord art pending overlay key).any (fun r => r.version == expected) then
        some (overlay.insert key (some ⟨value, seq⟩))
      else none)
  | .delete key => .ok (some (overlay.insert key none))
  | .deleteIfVersion key expected =>
    .ok (if (projectedRecord art pending overlay key).any (fun r => r.version == expected) then
        some (overlay.insert key none)
      else none)
  | .assertVersion key expected =>
    .ok (if (projectedRecord art pending overlay key).any (fun r => r.version == expected) then
        some overlay
      else none)
  | .assertAbsent key =>
    .ok (if (projectedRecord art pending overlay key).isSome then none else some overlay)
  | .assertPrefixEmpty pre =>
    .ok (if projectedPrefixEmpty art overlay pre then some overlay else none)
  | .rename src dst force =>
    match projectedRecord art pending overlay src with
    | none => .error .notFound
    | some record =>
      if src = dst then .ok (some overlay)
      else if force = false ∧ (projectedRecord art pending overlay dst).isSome then
        .error .dstExists
      else .ok (some ((overlay.insert src none).insert dst (some ⟨record.value, seq⟩)))

/-- The guarded loop of `preflight_batch`. -/
def preflightBatchOps (overlay : BatchOverlay) (seq : ℕ) : List BatchOp → Except Error Bool
  | [] => .ok true
  | op :: rest =>
    match preflightBatchOp art pending overlay seq op with
    | .error e => .error e
    | .ok none => .ok false
    | .ok (some overlay') => preflightBatchOps overlay' (op.nextSeq seq) rest

/-- `batch_is_guard_free`. -/
def batchIsGuardFree (ops : List BatchOp) : Bool :=
  ops.all (fun op => match op with
    | .put _ _ | .delete _ => true
    | _ => false)

/-- `preflight_batch`. -/
def preflightBatch (seq : ℕ) (ops : List BatchOp) : Except Error Bool :=
  if batchIsGuardFree ops then .ok true else preflightBatchOps art pending ∅ seq ops

end Preflight

/-! ## Apply -/

/-- One operation of `apply_batch_walker_inline` on the tree: what it logs, or the error that
closes the store.  The tree keeps what was applied before an error. -/
def applyBatchOp (art : VersionedMap) (seq : ℕ) :
    BatchOp → VersionedMap × Except Error (List WalOp)
  | .put key value =>
    ((art.insertConditional key value seq .always).1, .ok [.insert key value])
  | .putIfAbsent key value =>
    match art.insertConditional key value seq .ifAbsent with
    | (art', true) => (art', .ok [.insert key value])
    | (art', false) => (art', .error .internal)
  | .compareAndPut key expected value =>
    match art.insertConditional key value seq (.ifVersion expected) with
    | (art', true) => (art', .ok [.insert key value])
    | (art', false) => (art', .error .internal)
  | .delete key => ((art.eraseConditional key .always).1, .ok [.erase key])
  | .deleteIfVersion key expected =>
    match art.eraseConditional key (.ifVersion expected) with
    | (art', true) => (art', .ok [.erase key])
    | (art', false) => (art', .error .internal)
  | .assertVersion _ _ | .assertAbsent _ | .assertPrefixEmpty _ => (art, .ok [])
  | .rename src dst force =>
    match art.lookup src with
    | none => (art, .error .notFound)
    | some record =>
      -- a rename of a key onto itself changes nothing and is logged all the same
      if src = dst then (art, .ok [.rename src dst force])
      else if force = false ∧ (art.lookup dst).isSome then (art, .error .dstExists)
      else
        let erased := (art.eraseConditional src .always).1
        ((erased.insertConditional dst record.value seq .always).1, .ok [.rename src dst force])

/-- `apply_batch_walker_inline`. -/
def applyBatchWalkerInline (art : VersionedMap) (seq : ℕ) :
    List BatchOp → VersionedMap × Except Error (List WalOp)
  | [] => (art, .ok [])
  | op :: rest =>
    match applyBatchOp art seq op with
    | (art', .error e) => (art', .error e)
    | (art', .ok logged) =>
      match applyBatchWalkerInline art' (op.nextSeq seq) rest with
      | (art'', .error e) => (art'', .error e)
      | (art'', .ok more) => (art'', .ok (logged ++ more))

/-- One logged operation of `replay_wal`. -/
def replayOp (m : VersionedMap) (seq : ℕ) : WalOp → VersionedMap
  | .insert key value => (m.insertConditional key value seq .always).1
  | .erase key => (m.eraseConditional key .always).1
  | .rename src dst force =>
    match m.lookup src with
    | none => m
    | some record =>
      if force = false ∧ (m.lookup dst).isSome then m
      else
        let erased := (m.eraseConditional src .always).1
        (erased.insertConditional dst record.value seq .always).1

/-- The operations of one batch record, numbered from its base. -/
def replayBatch (m : VersionedMap) (base : ℕ) : List WalOp → VersionedMap
  | [] => m
  | op :: rest => replayBatch (replayOp m base op) (base + 1) rest

/-! ## Specification -/

/-- What an operation of a batch does to a versioned map; `none` if its guard fails. -/
def specBatchOp (m : VersionedMap) (seq : ℕ) : BatchOp → Except Error (Option VersionedMap)
  | .put key value => .ok (some (m.insert key ⟨value, seq⟩))
  | .putIfAbsent key value =>
    .ok (if (m.lookup key).isSome then none else some (m.insert key ⟨value, seq⟩))
  | .compareAndPut key expected value =>
    .ok (if (m.lookup key).any (fun r => r.version == expected) then
        some (m.insert key ⟨value, seq⟩)
      else none)
  | .delete key => .ok (some (m.erase key))
  | .deleteIfVersion key expected =>
    .ok (if (m.lookup key).any (fun r => r.version == expected) then some (m.erase key) else none)
  | .assertVersion key expected =>
    .ok (if (m.lookup key).any (fun r => r.version == expected) then some m else none)
  | .assertAbsent key => .ok (if (m.lookup key).isSome then none else some m)
  | .assertPrefixEmpty pre =>
    .ok (if ∀ k ∈ m.keys, pre.isPrefixOf k = false then some m else none)
  | .rename src dst force =>
    match m.lookup src with
    | none => .error .notFound
    | some record =>
      if src = dst then .ok (some m)
      else if force = false ∧ (m.lookup dst).isSome then .error .dstExists
      else .ok (some ((m.erase src).insert dst ⟨record.value, seq⟩))

/-- A batch on a versioned map: all of its operations, or none if a guard fails. -/
def specBatch (m : VersionedMap) (seq : ℕ) : List BatchOp → Except Error (Option VersionedMap)
  | [] => .ok (some m)
  | op :: rest =>
    match specBatchOp m seq op with
    | .error e => .error e
    | .ok none => .ok none
    | .ok (some m') => specBatch m' (op.nextSeq seq) rest

/-! ## The preflight decides the specification -/

lemma isSome_lookup_iff_mem_keys {m : VersionedMap} {k : Key} :
    (m.lookup k).isSome = true ↔ k ∈ m.keys := by
  rw [Finmap.lookup_isSome, Finmap.mem_keys]

section PreflightSpec

variable {art m : VersionedMap} {pending : List DeltaOp} {overlay : BatchOverlay}

/-- The records a batch projects are those of the map. -/
def Projects (art : VersionedMap) (pending : List DeltaOp) (overlay : BatchOverlay)
    (m : VersionedMap) : Prop :=
  ∀ key, projectedRecord art pending overlay key = m.lookup key

lemma projects_empty (h : StagedOnce pending) :
    Projects art pending ∅ (applyWriteDeltaOps art pending) := by
  intro key
  rw [lookup_applyWriteDeltaOps h]
  rfl

lemma projectedRecord_insert (key k : Key) (r : Option Record) :
    projectedRecord art pending (overlay.insert key r) k =
      if k = key then r else projectedRecord art pending overlay k := by
  unfold projectedRecord
  split_ifs with hk
  · rw [hk, Finmap.lookup_insert]
  · rw [Finmap.lookup_insert_of_ne _ hk]

variable (hp : Projects art pending overlay m)
include hp

lemma Projects.insert (key : Key) (r : Record) :
    Projects art pending (overlay.insert key (some r)) (m.insert key r) := by
  intro k
  rw [projectedRecord_insert, VersionedMap.lookup_insert_eq, hp k]

lemma Projects.erase (key : Key) :
    Projects art pending (overlay.insert key none) (m.erase key) := by
  intro k
  rw [projectedRecord_insert, VersionedMap.lookup_erase_eq, hp k]

/-- The scan for a prefix sees the tree only, so nothing under the prefix may be staged. -/
lemma projectedPrefixEmpty_eq {pre : Key} (hpre : ∀ d ∈ pending, pre.isPrefixOf d.key = false) :
    projectedPrefixEmpty art overlay pre = decide (∀ k ∈ m.keys, pre.isPrefixOf k = false) := by
  -- under the prefix, a key the overlay leaves alone has the tree's record
  have hkeys : ∀ k, pre.isPrefixOf k = true → (k ∈ m.keys ↔
      (overlay.lookup k).elim (k ∈ art.keys) (fun r => r.isSome = true)) := by
    intro k hk
    rw [← isSome_lookup_iff_mem_keys, ← hp k, projectedRecord]
    cases hov : overlay.lookup k with
    | some r => rfl
    | none =>
      have hun : lookupWriteDelta pending k = none := by
        refine lookupWriteDelta_eq_none.mpr (fun d hd heq => ?_)
        have := hpre d hd
        rw [heq, hk] at this
        exact Bool.noConfusion this
      simp only [lookupRecordUnlocked, hun]
      exact isSome_lookup_iff_mem_keys
  unfold projectedPrefixEmpty
  split_ifs with hempty hany
  · rw [basePrefixEmpty, decide_eq_decide]
    refine forall_congr' fun k => ?_
    cases hpk : pre.isPrefixOf k with
    | false => simp
    | true =>
      have hnone : overlay.lookup k = none := by
        rw [Finmap.lookup_eq_none, ← Finmap.mem_keys, hempty]
        exact Finset.notMem_empty k
      rw [hkeys k hpk, hnone, Option.elim_none]
  · obtain ⟨k, -, hsome, hpk⟩ := hany
    symm
    rw [decide_eq_false_iff_not]
    intro h
    have hmem : k ∈ m.keys := by
      rw [hkeys k hpk]
      cases hov : overlay.lookup k with
      | none => simp [hov] at hsome
      | some r => simpa [hov] using hsome
    exact Bool.noConfusion ((h k hmem).symm.trans hpk)
  · rw [decide_eq_decide]
    refine forall_congr' fun k => ?_
    cases hpk : pre.isPrefixOf k with
    | false => simp
    | true =>
      rw [hkeys k hpk]
      cases hov : overlay.lookup k with
      | none => simp
      | some r =>
        cases r with
        | none => simp
        | some r =>
          refine absurd ⟨k, ?_, by simp [hov], hpk⟩ hany
          rw [Finmap.mem_keys, ← Finmap.lookup_isSome, hov]
          rfl

/-- A preflight step and a specified step agree: same error, same failed guard, or records
that still project to the map. -/
inductive Agree (art : VersionedMap) (pending : List DeltaOp) :
    Except Error (Option BatchOverlay) → Except Error (Option VersionedMap) → Prop
  | error (e : Error) : Agree art pending (.error e) (.error e)
  | failed : Agree art pending (.ok none) (.ok none)
  | passed {overlay : BatchOverlay} {m : VersionedMap} (h : Projects art pending overlay m) :
      Agree art pending (.ok (some overlay)) (.ok (some m))

lemma agree_ite {c : Bool} :
    Agree art pending (.ok (if c then some overlay else none))
    (.ok (if c then some m else none)) := by
  cases c
  · exact .failed
  · exact .passed hp

lemma agree_preflightBatchOp (seq : ℕ) (op : BatchOp)
    (hun : ∀ d ∈ pending, op.touches d.key = false) :
    Agree art pending (preflightBatchOp art pending overlay seq op) (specBatchOp m seq op) := by
  cases op with
  | put key value => exact .passed (hp.insert key _)
  | putIfAbsent key value =>
    simp only [preflightBatchOp, specBatchOp, hp key]
    split_ifs
    · exact .failed
    · exact .passed (hp.insert key _)
  | compareAndPut key expected value =>
    simp only [preflightBatchOp, specBatchOp, hp key]
    exact agree_ite (hp.insert key _)
  | delete key => exact .passed (hp.erase key)
  | deleteIfVersion key expected =>
    simp only [preflightBatchOp, specBatchOp, hp key]
    exact agree_ite (hp.erase key)
  | assertVersion key expected =>
    simp only [preflightBatchOp, specBatchOp, hp key]
    exact agree_ite hp
  | assertAbsent key =>
    simp only [preflightBatchOp, specBatchOp, hp key]
    split_ifs
    · exact .failed
    · exact .passed hp
  | assertPrefixEmpty pre =>
    simp only [preflightBatchOp, specBatchOp, projectedPrefixEmpty_eq hp hun, decide_eq_true_eq]
    split_ifs
    · exact .passed hp
    · exact .failed
  | rename src dst force =>
    simp only [preflightBatchOp, specBatchOp, hp src, hp dst]
    cases m.lookup src with
    | none => exact .error _
    | some record =>
      simp only
      split_ifs
      · exact .passed hp
      · exact .error _
      · exact .passed ((hp.erase src).insert dst _)

lemma preflightBatchOps_eq (seq : ℕ) (ops : List BatchOp)
    (hun : ∀ d ∈ pending, ∀ op ∈ ops, op.touches d.key = false) :
    preflightBatchOps art pending overlay seq ops =
      (specBatch m seq ops).map Option.isSome := by
  induction ops generalizing overlay m seq with
  | nil => rfl
  | cons op rest ih =>
    have hop := agree_preflightBatchOp hp seq op (fun d hd => hun d hd op mem_cons_self)
    simp only [preflightBatchOps, specBatch]
    generalize preflightBatchOp art pending overlay seq op = x at hop ⊢
    generalize specBatchOp m seq op = y at hop ⊢
    cases hop with
    | error e => rfl
    | failed => rfl
    | passed hp' =>
      exact ih hp' _ (fun d hd o ho => hun d hd o (mem_cons_of_mem _ ho))

omit hp

lemma specBatch_of_guardFree (m : VersionedMap) (seq : ℕ) (ops : List BatchOp)
    (h : batchIsGuardFree ops = true) : ∃ m', specBatch m seq ops = .ok (some m') := by
  induction ops generalizing m seq with
  | nil => exact ⟨m, rfl⟩
  | cons op rest ih =>
    simp only [batchIsGuardFree, all_cons, Bool.and_eq_true] at h
    cases op with
    | put key value | delete key => exact ih _ _ h.2
    | _ => simp at h

/-- The preflight of a batch none of whose keys is staged decides its specification on what
readers see. -/
theorem preflightBatch_eq (h : StagedOnce pending) (seq : ℕ) (ops : List BatchOp)
    (hun : ∀ d ∈ pending, ∀ op ∈ ops, op.touches d.key = false) :
    preflightBatch art pending seq ops =
      (specBatch (applyWriteDeltaOps art pending) seq ops).map Option.isSome := by
  unfold preflightBatch
  split_ifs with hfree
  · obtain ⟨m', hm'⟩ := specBatch_of_guardFree (applyWriteDeltaOps art pending) seq ops hfree
    rw [hm']
    rfl
  · exact preflightBatchOps_eq (projects_empty h) seq ops hun

end PreflightSpec

/-! ## A batch that passes is applied and logged as specified -/

section ApplySpec

variable {art : VersionedMap} {pending : List DeltaOp}

/-- A forced rename of a key onto itself, which is logged but not applied. -/
def BatchOp.selfRename : BatchOp → Bool
  | .rename src dst force => force && src == dst
  | _ => false

/-- A specified step of what readers see is a step of the tree that logs its own redo. -/
def Applies (art : VersionedMap) (pending : List DeltaOp) (seq next : ℕ)
    (applied : VersionedMap × Except Error (List WalOp)) (m' : VersionedMap) : Prop :=
  ∃ art' logged, applied = (art', .ok logged) ∧ applyWriteDeltaOps art' pending = m' ∧
    replayBatch (applyWriteDeltaOps art pending) seq logged = m' ∧ next = seq + logged.length

lemma replayBatch_append (m : VersionedMap) (base : ℕ) (xs ys : List WalOp) :
    replayBatch m base (xs ++ ys) = replayBatch (replayBatch m base xs) (base + xs.length) ys := by
  induction xs generalizing m base with
  | nil => rfl
  | cons x xs ih =>
    simp only [cons_append, replayBatch, length_cons]
    rw [ih, Nat.add_right_comm, Nat.add_assoc]

lemma replayOp_rename {m : VersionedMap} {src dst : Key} {force : Bool} {record : Record}
    (seq : ℕ) (hsrc : m.lookup src = some record)
    (hdst : ¬ (force = false ∧ (m.lookup dst).isSome = true)) :
    replayOp m seq (.rename src dst force) = (m.erase src).insert dst ⟨record.value, seq⟩ := by
  simp only [replayOp, hsrc, if_neg hdst, VersionedMap.eraseConditional_always_fst,
    VersionedMap.insertConditional_always]

variable {key : Key} (h : StagedOnce pending) (hkey : ∀ d ∈ pending, d.key ≠ key)
include h hkey

/-- A guarded insert whose guard holds for what readers see. -/
lemma insertConditional_of_allows {condition : InsertCondition} (value : Value) (seq : ℕ) :
    art.insertConditional key value seq condition =
      if condition.allows ((applyWriteDeltaOps art pending).lookup key) then
        (art.insert key ⟨value, seq⟩, true)
      else (art, false) := by
  rw [lookup_applyWriteDeltaOps_of_unstaged h hkey]
  rfl

lemma eraseConditional_of_allows {condition : EraseCondition} :
    art.eraseConditional key condition =
      if condition.allows ((applyWriteDeltaOps art pending).lookup key) then
        (art.erase key, true)
      else (art, false) := by
  rw [lookup_applyWriteDeltaOps_of_unstaged h hkey]
  rfl

lemma applies_insert (value : Value) (seq : ℕ) :
    Applies art pending seq (seq + 1) (art.insert key ⟨value, seq⟩, .ok [.insert key value])
      ((applyWriteDeltaOps art pending).insert key ⟨value, seq⟩) :=
  ⟨_, _, rfl, applyWriteDeltaOps_insert h hkey art _, rfl, rfl⟩

lemma applies_erase (seq : ℕ) :
    Applies art pending seq (seq + 1) (art.erase key, .ok [.erase key])
      ((applyWriteDeltaOps art pending).erase key) :=
  ⟨_, _, rfl, applyWriteDeltaOps_erase h hkey art,
    VersionedMap.eraseConditional_always_fst _ _, rfl⟩

omit hkey

omit h in
lemma applies_assert (seq : ℕ) :
    Applies art pending seq seq (art, .ok []) (applyWriteDeltaOps art pending) :=
  ⟨_, _, rfl, rfl, rfl, rfl⟩

lemma applies_batchOp {seq : ℕ} {op : BatchOp} {m' : VersionedMap}
    (hun : ∀ d ∈ pending, op.touches d.key = false) (hself : op.selfRename = false)
    (hspec : specBatchOp (applyWriteDeltaOps art pending) seq op = .ok (some m')) :
    Applies art pending seq (op.nextSeq seq) (applyBatchOp art seq op) m' := by
  cases op with
  | put key value =>
    have hkey : ∀ d ∈ pending, d.key ≠ key := by simpa [BatchOp.touches] using hun
    obtain rfl : _ = m' := by simpa [specBatchOp] using hspec
    exact applies_insert h hkey value seq
  | putIfAbsent key value =>
    have hkey : ∀ d ∈ pending, d.key ≠ key := by simpa [BatchOp.touches] using hun
    simp only [specBatchOp, Except.ok.injEq] at hspec
    split at hspec <;> try contradiction
    next hnone =>
      cases hspec
      have hallow : InsertCondition.ifAbsent.allows
          ((applyWriteDeltaOps art pending).lookup key) = true := by
        simpa [InsertCondition.allows] using hnone
      simp only [applyBatchOp, insertConditional_of_allows h hkey, hallow, if_true]
      exact applies_insert h hkey value seq
  | compareAndPut key expected value =>
    have hkey : ∀ d ∈ pending, d.key ≠ key := by simpa [BatchOp.touches] using hun
    simp only [specBatchOp, Except.ok.injEq] at hspec
    split at hspec <;> try contradiction
    next hallow =>
      cases hspec
      simp only [applyBatchOp, insertConditional_of_allows h hkey, InsertCondition.allows, hallow,
        if_true]
      exact applies_insert h hkey value seq
  | delete key =>
    have hkey : ∀ d ∈ pending, d.key ≠ key := by simpa [BatchOp.touches] using hun
    obtain rfl : _ = m' := by simpa [specBatchOp] using hspec
    simp only [applyBatchOp, VersionedMap.eraseConditional_always_fst]
    exact applies_erase h hkey seq
  | deleteIfVersion key expected =>
    have hkey : ∀ d ∈ pending, d.key ≠ key := by simpa [BatchOp.touches] using hun
    simp only [specBatchOp, Except.ok.injEq] at hspec
    split at hspec <;> try contradiction
    next hallow =>
      cases hspec
      simp only [applyBatchOp, eraseConditional_of_allows h hkey, EraseCondition.allows, hallow,
        if_true]
      exact applies_erase h hkey seq
  | assertVersion key expected | assertAbsent key | assertPrefixEmpty pre =>
    simp only [specBatchOp, Except.ok.injEq] at hspec
    split at hspec <;> try contradiction
    cases hspec
    exact applies_assert seq
  | rename src dst force =>
    have hsrc : ∀ d ∈ pending, d.key ≠ src := by
      intro d hd
      have := hun d hd
      simp only [BatchOp.touches, decide_eq_false_iff_not, not_or] at this
      exact this.1
    have hdst : ∀ d ∈ pending, d.key ≠ dst := by
      intro d hd
      have := hun d hd
      simp only [BatchOp.touches, decide_eq_false_iff_not, not_or] at this
      exact this.2
    have hlsrc := lookup_applyWriteDeltaOps_of_unstaged h hsrc art
    have hldst := lookup_applyWriteDeltaOps_of_unstaged h hdst art
    simp only [specBatchOp] at hspec
    split at hspec <;> try contradiction
    next record hrec =>
      have hart : art.lookup src = some record := hlsrc.symm.trans hrec
      simp only [applyBatchOp, hart]
      rw [hldst] at hspec
      split_ifs at hspec ⊢ with heq hforce <;> try contradiction
      · -- only an unforced rename of a key onto itself is left: replay finds the key taken
        obtain rfl : _ = m' := by simpa using hspec
        have hf : force = false := by simpa [BatchOp.selfRename, heq] using hself
        refine ⟨art, _, rfl, rfl, ?_, rfl⟩
        subst heq
        simp [replayBatch, replayOp, hrec, hf]
      · obtain rfl : _ = m' := by simpa using hspec
        refine ⟨_, _, rfl, ?_, ?_, rfl⟩
        · rw [VersionedMap.insertConditional_always, VersionedMap.eraseConditional_always_fst,
            applyWriteDeltaOps_insert h hdst, applyWriteDeltaOps_erase h hsrc]
        · simp only [replayBatch]
          exact replayOp_rename seq hrec (by rw [hldst]; exact hforce)

/-- A batch whose specification succeeds is applied to the tree without an error, readers see
the specified map, and replaying the record of the batch gives the same map. -/
theorem applies_batch {seq : ℕ} {ops : List BatchOp} {m' : VersionedMap}
    (hun : ∀ d ∈ pending, ∀ op ∈ ops, op.touches d.key = false)
    (hself : ∀ op ∈ ops, op.selfRename = false)
    (hspec : specBatch (applyWriteDeltaOps art pending) seq ops = .ok (some m')) :
    ∃ art' logged, applyBatchWalkerInline art seq ops = (art', .ok logged) ∧
      applyWriteDeltaOps art' pending = m' ∧
      replayBatch (applyWriteDeltaOps art pending) seq logged = m' := by
  induction ops generalizing art seq with
  | nil =>
    obtain rfl : _ = m' := by simpa [specBatch] using hspec
    exact ⟨art, [], rfl, rfl, rfl⟩
  | cons op rest ih =>
    rcases hop : specBatchOp (applyWriteDeltaOps art pending) seq op with e | _ | m₁
    · simp [specBatch, hop] at hspec
    · simp [specBatch, hop] at hspec
    · simp only [specBatch, hop] at hspec
      obtain ⟨art₁, logged, happ, hview, hreplay, hnext⟩ := applies_batchOp h
        (fun d hd => hun d hd op mem_cons_self) (hself op mem_cons_self) hop
      rw [← hview] at hspec
      obtain ⟨art₂, more, happ', hview', hreplay'⟩ := ih
        (fun d hd o ho => hun d hd o (mem_cons_of_mem _ ho))
        (forall_mem_cons.mp hself).2 hspec
      refine ⟨art₂, logged ++ more, ?_, hview', ?_⟩
      · simp only [applyBatchWalkerInline, happ, happ']
      · rw [replayBatch_append, hreplay, ← hnext, ← hview]
        exact hreplay'

end ApplySpec

/-- On the tree itself, an operation that is specified is applied without an error. -/
lemma applyBatchOp_of_spec {art m : VersionedMap} {seq : ℕ} {op : BatchOp}
    (hspec : specBatchOp art seq op = .ok (some m)) :
    ∃ logged, applyBatchOp art seq op = (m, .ok logged) := by
  cases hself : op.selfRename with
  | false =>
    have hnone : StagedOnce [] := by simp [StagedOnce]
    obtain ⟨_, logged, happ, rfl, -⟩ := applies_batchOp hnone nofun hself hspec
    exact ⟨logged, happ⟩
  | true =>
    cases op with
    | rename src dst force =>
      obtain ⟨-, rfl⟩ : force = true ∧ src = dst := by simpa [BatchOp.selfRename] using hself
      simp only [specBatchOp, if_true] at hspec
      cases hsrc : art.lookup src with
      | none => simp [hsrc] at hspec
      | some record =>
        obtain rfl : art = m := by simpa [hsrc] using hspec
        exact ⟨[.rename src src force], by simp only [applyBatchOp, hsrc, if_true]⟩
    | _ => cases hself

end Tree
end Holt
