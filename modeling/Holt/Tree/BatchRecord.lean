import Mathlib.Data.List.TakeWhile
import Holt.Journal.WalReplay
import Holt.Tree.Writes

/-!
# The record of a batch

`apply_batch_walker_inline` applies the operations of a batch and encodes them in the same pass.
Consecutive inserts are taken as a run: `insert_run_plan` looks for inserts of one shape and for
inserts whose keys share a prefix, and a run is applied as a whole before it is pushed to the
encoder in one frame.  Assertions are neither applied nor pushed.

* `applyBatchWalker`: the loop, with the pushes it makes.
* `applyBatchWalker_eq`: it changes the tree as the operations do one by one, and what it pushes
  depends on the operations only (`batchPushes`).
* `ops_batchPushes`: the frames hold one logged operation for each operation that changes the
  tree, in order, and every push is made as the encoder asks (`shaped_batchPushes`).
-/

namespace Holt
namespace Tree

open List
open Journal (Push PrimitiveOp)

/-! ## Runs of inserts -/

/-- `batch_insert_parts`. -/
def BatchOp.insertParts : BatchOp → Option (Key × Value)
  | .put key value | .putIfAbsent key value | .compareAndPut key _ value => some (key, value)
  | _ => none

/-- `batch_insert_condition`. -/
def BatchOp.insertCondition : BatchOp → Option InsertCondition
  | .put _ _ => some .always
  | .putIfAbsent _ _ => some .ifAbsent
  | .compareAndPut _ expected _ => some (.ifVersion expected)
  | _ => none

/-- `INSERT_PREFIX_RUN_MIN_PREFIX`. -/
def insertPrefixRunMinPrefix : ℕ := 12

/-- `INSERT_PREFIX_RUN_MIN_COUNT`. -/
def insertPrefixRunMinCount : ℕ := 2

/-- `common_prefix_len`. -/
def commonPrefixLen : Key → Key → ℕ
  | a :: left, b :: right => if a = b then commonPrefixLen left right + 1 else 0
  | _, _ => 0

/-- How a run is written. -/
inductive InsertRunEncoding
  | fixed (keyLen valueLen : ℕ)
  | prefixed (prefixLen : ℕ)
deriving DecidableEq

structure InsertRunPlan where
  len : ℕ
  encoding : InsertRunEncoding
deriving DecidableEq

/-- The inserts of a list of operations. -/
def insertItems (ops : List BatchOp) : List (Key × Value) := ops.filterMap BatchOp.insertParts

/-- `InsertRunPlan::encoded_len`. -/
def InsertRunPlan.encodedLen (plan : InsertRunPlan) (ops : List BatchOp) : ℕ :=
  match plan.encoding with
  | .fixed keyLen valueLen =>
    if plan.len = 1 then 1 + 8 + 4 + keyLen + 4 + valueLen
    else 1 + 8 + 4 + 4 + 4 + plan.len * (keyLen + valueLen)
  | .prefixed prefixLen =>
    1 + 8 + 4 + 4 + prefixLen +
      ((insertItems ops).map (fun item => 4 + (item.1.length - prefixLen) + 4 + item.2.length)).sum

/-- An insert of the given shape. -/
def BatchOp.hasShape (keyLen valueLen : ℕ) (op : BatchOp) : Bool :=
  op.insertParts.any (fun item => item.1.length == keyLen && item.2.length == valueLen)

/-- `same_shape_insert_run_len`, for the operations from `start` on. -/
def sameShapeInsertRunLen : List BatchOp → ℕ
  | [] => 0
  | op :: rest =>
    match op.insertParts with
    | none => 0
    | some (key, value) => (rest.takeWhile (BatchOp.hasShape key.length value.length)).length + 1

/-- The loop of `same_prefix_insert_run`, with the shared length and the count so far. -/
def samePrefixLoop (firstKey : Key) : ℕ → ℕ → List BatchOp → ℕ × ℕ
  | prefixLen, len, [] => (prefixLen, len)
  | prefixLen, len, op :: rest =>
    match op.insertParts with
    | none => (prefixLen, len)
    | some (key, _) =>
      let shared := commonPrefixLen (firstKey.take prefixLen) key
      -- the operation that ends the run has already shortened the shared length
      if shared < insertPrefixRunMinPrefix then (shared, len)
      else samePrefixLoop firstKey shared (len + 1) rest

/-- `same_prefix_insert_run`: length of the run and of the shared prefix. -/
def samePrefixInsertRun : List BatchOp → Option (ℕ × ℕ)
  | [] => none
  | op :: rest =>
    match op.insertParts with
    | none => none
    | some (firstKey, _) =>
      let (prefixLen, len) := samePrefixLoop firstKey firstKey.length 1 rest
      if insertPrefixRunMinCount ≤ len then some (len, prefixLen) else none

/-- `insert_run_plan`: a shared prefix is used if it saves bytes over single inserts. -/
def insertRunPlan : List BatchOp → Option InsertRunPlan
  | [] => none
  | op :: rest =>
    match op.insertParts with
    | none => none
    | some (key, value) =>
      let fixed : InsertRunPlan :=
        ⟨sameShapeInsertRunLen (op :: rest), .fixed key.length value.length⟩
      match samePrefixInsertRun (op :: rest) with
      | none => some fixed
      | some (len, prefixLen) =>
        let shared : InsertRunPlan := ⟨len, .prefixed prefixLen⟩
        let run := (op :: rest).take len
        let individualLen :=
          ((insertItems run).map (fun item => 1 + 8 + 4 + item.1.length + 4 + item.2.length)).sum
        if shared.encodedLen run < individualLen then some shared else some fixed

/-- The push of a run. -/
def InsertRunPlan.push (plan : InsertRunPlan) (treeId : UInt64) (run : List BatchOp) : Push :=
  let items := insertItems run
  match plan.encoding with
  | .fixed keyLen valueLen => .insertRun treeId plan.len keyLen valueLen items
  | .prefixed prefixLen =>
    .insertPrefixRun treeId ((items.headD ([], [])).1.take prefixLen) plan.len items

/-- The push of an operation that is not an insert. -/
def BatchOp.push (treeId : UInt64) : BatchOp → List Push
  | .delete key | .deleteIfVersion key _ => [.erase treeId key]
  | .rename src dst force => [.renameObject treeId src dst force]
  | _ => []

/-! ## Apply and encode -/

/-- `apply_batch_insert_run_walker`.  Every item has to change the tree. -/
def applyBatchInsertRunWalker : VersionedMap → ℕ → List BatchOp → VersionedMap × Except Error Unit
  | art, _, [] => (art, .ok ())
  | art, seq, op :: rest =>
    match op.insertParts, op.insertCondition with
    | some (key, value), some condition =>
      match art.insertConditional key value seq condition with
      | (art', true) => applyBatchInsertRunWalker art' (seq + 1) rest
      | (art', false) => (art', .error .internal)
    | _, _ => (art, .error .internal)

/-- `apply_batch_walker_inline` with an encoder.  A turn takes at least one operation, so their
number bounds the turns. -/
def applyBatchWalker (treeId : UInt64) :
    ℕ → VersionedMap → ℕ → List BatchOp → VersionedMap × Except Error (List Push)
  | 0, art, _, _ => (art, .ok [])
  | _ + 1, art, _, [] => (art, .ok [])
  | fuel + 1, art, seq, op :: rest =>
    match insertRunPlan (op :: rest) with
    | some plan =>
      let run := (op :: rest).take plan.len
      match applyBatchInsertRunWalker art seq run with
      | (art', .error e) => (art', .error e)
      | (art', .ok ()) =>
        match applyBatchWalker treeId fuel art' (seq + plan.len)
            ((op :: rest).drop plan.len) with
        | (art'', .error e) => (art'', .error e)
        | (art'', .ok pushes) => (art'', .ok (plan.push treeId run :: pushes))
    | none =>
      match applyBatchOp art seq op with
      | (art', .error e) => (art', .error e)
      | (art', .ok _) =>
        match applyBatchWalker treeId fuel art' (op.nextSeq seq) rest with
        | (art'', .error e) => (art'', .error e)
        | (art'', .ok pushes) => (art'', .ok (op.push treeId ++ pushes))

/-- The pushes of a batch. -/
def batchPushes (treeId : UInt64) : ℕ → List BatchOp → List Push
  | 0, _ => []
  | _ + 1, [] => []
  | fuel + 1, op :: rest =>
    match insertRunPlan (op :: rest) with
    | some plan =>
      plan.push treeId ((op :: rest).take plan.len) ::
        batchPushes treeId fuel ((op :: rest).drop plan.len)
    | none => op.push treeId ++ batchPushes treeId fuel rest

/-- `BatchEncoder::begin`, the pushes and `finish`. -/
def batchRecord (treeId : UInt64) (base : ℕ) (pushes : List Push) : Journal.WalRecord :=
  .batch (UInt64.ofNat base) treeId none pushes

/-- `apply_batch` on a tree nobody else writes to: flush the write delta, check, apply and
encode.  The result is the call's, with the record it submitted; `none` if the encoder panics. -/
def applyBatchLogged (crc : List Byte → UInt32) (treeId : UInt64) (s : Store)
    (ops : List BatchOp) : Option (Store × Except Error (Bool × Option (List Byte))) :=
  let flushed := flushWriteDelta s
  let burned := { flushed with nextSeq := s.nextSeq + batchCount ops }
  match preflightBatch flushed.art flushed.pending s.nextSeq ops with
  | .error e => some (burned, .error e)
  | .ok false => some (burned, .ok (false, none))
  | .ok true =>
    if batchCount ops = 0 then some (burned, .ok (true, none))
    else
      match applyBatchWalker treeId ops.length flushed.art s.nextSeq ops with
      | (art, .error e) => some ({ burned with art := art, failedClosed := true }, .error e)
      | (art, .ok pushes) =>
        ((batchRecord treeId s.nextSeq pushes).encode crc).map (fun record =>
          ({ burned with art := art }, .ok (true, some record)))

/-! ## What a plan covers -/

section Plans

variable {op : BatchOp} {rest : List BatchOp} {plan : InsertRunPlan}

lemma insertParts_of_hasShape {keyLen valueLen : ℕ} {o : BatchOp}
    (h : o.hasShape keyLen valueLen = true) :
    ∃ key value, o.insertParts = some (key, value) ∧ key.length = keyLen ∧
      value.length = valueLen := by
  unfold BatchOp.hasShape at h
  cases hparts : o.insertParts with
  | none => simp [hparts] at h
  | some item => exact ⟨item.1, item.2, rfl, by simpa [hparts] using h⟩

lemma commonPrefixLen_le (left right : Key) : commonPrefixLen left right ≤ left.length := by
  fun_induction commonPrefixLen left right with
  | case1 left b right ih => simpa using ih
  | case2 a left b right hab | case3 left right h => exact Nat.zero_le _

lemma take_commonPrefixLen (left right : Key) :
    left.take (commonPrefixLen left right) <+: right := by
  fun_induction commonPrefixLen left right with
  | case1 left b right ih => simpa using ih
  | case2 a left b right hab | case3 left right h => exact nil_prefix

/-- The loop counts inserts whose keys start with the prefix it ends with. -/
lemma samePrefixLoop_spec (firstKey : Key) :
    ∀ (ops : List BatchOp) (prefixLen len : ℕ),
      (samePrefixLoop firstKey prefixLen len ops).1 ≤ prefixLen ∧
      ∃ n ≤ ops.length, (samePrefixLoop firstKey prefixLen len ops).2 = len + n ∧
        ∀ o ∈ ops.take n, ∃ key value, o.insertParts = some (key, value) ∧
          firstKey.take (samePrefixLoop firstKey prefixLen len ops).1 <+: key := by
  intro ops
  induction ops with
  | nil => exact fun prefixLen len => ⟨le_rfl, 0, le_rfl, rfl, by simp⟩
  | cons o ops ih =>
    intro prefixLen len
    cases hparts : o.insertParts with
    | none =>
      simp only [samePrefixLoop, hparts]
      exact ⟨le_rfl, 0, Nat.zero_le _, rfl, by simp⟩
    | some item =>
      have hle : commonPrefixLen (firstKey.take prefixLen) item.1 ≤ prefixLen :=
        (commonPrefixLen_le _ _).trans (by rw [length_take]; omega)
      simp only [samePrefixLoop, hparts]
      by_cases hshort : commonPrefixLen (firstKey.take prefixLen) item.1 < insertPrefixRunMinPrefix
      · rw [if_pos hshort]
        exact ⟨hle, 0, Nat.zero_le _, rfl, by simp⟩
      · rw [if_neg hshort]
        obtain ⟨hshared, n, hn, hlen, hkeys⟩ :=
          ih (commonPrefixLen (firstKey.take prefixLen) item.1) (len + 1)
        refine ⟨hshared.trans hle, n + 1, by simpa using hn, by rw [hlen]; omega, ?_⟩
        intro o' ho'
        rw [take_succ_cons, mem_cons] at ho'
        obtain rfl | ho' := ho'
        · -- what is left of the prefix at the end is still a prefix of this key
          refine ⟨item.1, item.2, hparts, ?_⟩
          have hfirst := take_commonPrefixLen (firstKey.take prefixLen) item.1
          rw [take_take, min_eq_left hle] at hfirst
          exact (take_prefix_take_left hshared).trans hfirst
        · exact hkeys o' ho'

/-- A plan stands for a run of inserts, and its push is made as the encoder asks. -/
structure PlansRun (treeId : UInt64) (ops : List BatchOp) (plan : InsertRunPlan) : Prop where
  pos : 1 ≤ plan.len
  le : plan.len ≤ ops.length
  inserts : ∀ o ∈ ops.take plan.len, o.insertParts.isSome = true
  shaped : (plan.push treeId (ops.take plan.len)).Shaped

lemma length_insertItems {run : List BatchOp} (h : ∀ o ∈ run, o.insertParts.isSome = true) :
    (insertItems run).length = run.length := by
  induction run with
  | nil => rfl
  | cons o run ih =>
    obtain ⟨item, hitem⟩ := Option.isSome_iff_exists.mp (h o mem_cons_self)
    have hrest := ih (forall_mem_cons.mp h).2
    rw [insertItems, filterMap_cons, hitem, length_cons, length_cons]
    exact congrArg Nat.succ hrest

lemma mem_insertItems {run : List BatchOp} {item : Key × Value} :
    item ∈ insertItems run ↔ ∃ o ∈ run, o.insertParts = some item := mem_filterMap

lemma plansRun_fixed (treeId : UInt64) {key : Key} {value : Value}
    (hparts : op.insertParts = some (key, value)) :
    PlansRun treeId (op :: rest)
      ⟨sameShapeInsertRunLen (op :: rest), .fixed key.length value.length⟩ := by
  have hlen : sameShapeInsertRunLen (op :: rest) =
      (rest.takeWhile (BatchOp.hasShape key.length value.length)).length + 1 := by
    simp only [sameShapeInsertRunLen, hparts]
  have hrun : (op :: rest).take (sameShapeInsertRunLen (op :: rest)) =
      op :: rest.takeWhile (BatchOp.hasShape key.length value.length) := by
    rw [hlen, take_succ_cons, ← prefix_iff_eq_take.mp (List.takeWhile_prefix _)]
  have hshape : ∀ o ∈ (op :: rest).take (sameShapeInsertRunLen (op :: rest)),
      ∃ key' value', o.insertParts = some (key', value') ∧ key'.length = key.length ∧
        value'.length = value.length := by
    intro o ho
    rw [hrun, mem_cons] at ho
    obtain rfl | ho := ho
    · exact ⟨key, value, hparts, rfl, rfl⟩
    · exact insertParts_of_hasShape (mem_takeWhile_imp ho)
  have hinserts : ∀ o ∈ (op :: rest).take (sameShapeInsertRunLen (op :: rest)),
      o.insertParts.isSome = true := by
    intro o ho
    obtain ⟨key', value', h, -⟩ := hshape o ho
    rw [h]
    rfl
  have hle : sameShapeInsertRunLen (op :: rest) ≤ (op :: rest).length := by
    have := (List.takeWhile_prefix (l := rest) (BatchOp.hasShape key.length value.length)).length_le
    rw [hlen, length_cons]
    omega
  refine ⟨by dsimp only; omega, hle, hinserts, by dsimp only; omega, ?_, ?_⟩
  · rw [length_insertItems hinserts, length_take]
    exact min_eq_left hle
  · intro item hitem
    obtain ⟨o, ho, hitem⟩ := mem_insertItems.mp hitem
    obtain ⟨key', value', h, hshape⟩ := hshape o ho
    cases h.symm.trans hitem
    exact hshape

lemma plansRun_prefixed (treeId : UInt64) {len prefixLen : ℕ}
    (h : samePrefixInsertRun (op :: rest) = some (len, prefixLen)) :
    PlansRun treeId (op :: rest) ⟨len, .prefixed prefixLen⟩ := by
  cases hparts : op.insertParts with
  | none => simp [samePrefixInsertRun, hparts] at h
  | some item =>
    obtain ⟨hshared, n, hn, hlen, hkeys⟩ := samePrefixLoop_spec item.1 rest item.1.length 1
    simp only [samePrefixInsertRun, hparts, Option.ite_none_right_eq_some, Option.some.injEq,
      Prod.mk.injEq] at h
    obtain ⟨-, hlen', hpre⟩ := h
    rw [hpre] at hkeys hshared
    obtain rfl : len = n + 1 := by omega
    have hpreed : ∀ o ∈ (op :: rest).take (n + 1), ∃ key value,
        o.insertParts = some (key, value) ∧ item.1.take prefixLen <+: key := by
      intro o ho
      rw [take_succ_cons, mem_cons] at ho
      obtain rfl | ho := ho
      · exact ⟨item.1, item.2, hparts, take_prefix _ _⟩
      · exact hkeys o ho
    have hinserts : ∀ o ∈ (op :: rest).take (n + 1), o.insertParts.isSome = true := by
      intro o ho
      obtain ⟨key, value, h, -⟩ := hpreed o ho
      rw [h]
      rfl
    have hle : n + 1 ≤ (op :: rest).length := by
      rw [length_cons]
      omega
    refine ⟨Nat.le_add_left 1 n, hle, hinserts, Nat.le_add_left 1 n, ?_, ?_⟩
    · rw [length_insertItems hinserts, length_take]
      exact min_eq_left hle
    · intro item' hitem
      obtain ⟨o, ho, hitem⟩ := mem_insertItems.mp hitem
      obtain ⟨key, value, h, hpre⟩ := hpreed o ho
      cases h.symm.trans hitem
      have hhead : (insertItems ((op :: rest).take (n + 1))).headD ([], []) = item := by
        rw [insertItems, take_succ_cons, filterMap_cons, hparts]
        rfl
      rw [hhead]
      exact hpre

lemma plansRun_of_plan (treeId : UInt64) (h : insertRunPlan (op :: rest) = some plan) :
    PlansRun treeId (op :: rest) plan := by
  cases hparts : op.insertParts with
  | none => simp [insertRunPlan, hparts] at h
  | some item =>
    simp only [insertRunPlan, hparts] at h
    cases hshared : samePrefixInsertRun (op :: rest) with
    | none =>
      rw [hshared] at h
      cases h
      exact plansRun_fixed treeId hparts
    | some run =>
      rw [hshared] at h
      dsimp only at h
      split_ifs at h with hsaves
      · cases h
        exact plansRun_prefixed treeId hshared
      · cases h
        exact plansRun_fixed treeId hparts

lemma insertParts_eq_none (h : insertRunPlan (op :: rest) = none) : op.insertParts = none := by
  cases hparts : op.insertParts with
  | none => rfl
  | some item =>
    simp only [insertRunPlan, hparts] at h
    cases hshared : samePrefixInsertRun (op :: rest) with
    | none => simp [hshared] at h
    | some run =>
      rw [hshared] at h
      dsimp only at h
      split_ifs at h

end Plans

/-! ## The operations of the frames -/

/-- What an operation logs when it is applied. -/
def BatchOp.logged : BatchOp → List WalOp
  | .put key value | .putIfAbsent key value | .compareAndPut key _ value => [.insert key value]
  | .delete key | .deleteIfVersion key _ => [.erase key]
  | .assertVersion _ _ | .assertAbsent _ | .assertPrefixEmpty _ => []
  | .rename src dst force => [.rename src dst force]

/-- A logged operation of a tree, as its record says it. -/
def WalOp.primitive (treeId : UInt64) : WalOp → PrimitiveOp
  | .insert key value => .insert treeId key value
  | .erase key => .erase treeId key
  | .rename src dst force => .renameObject treeId src dst force

lemma BatchOp.length_logged (op : BatchOp) : op.logged.length = if op.emitsWal then 1 else 0 := by
  cases op <;> rfl

lemma BatchOp.nextSeq_eq (op : BatchOp) (seq : ℕ) : op.nextSeq seq = seq + op.logged.length := by
  rw [BatchOp.nextSeq, BatchOp.length_logged]
  split_ifs <;> rfl

lemma length_flatMap_logged (ops : List BatchOp) :
    (ops.flatMap BatchOp.logged).length = batchCount ops := by
  induction ops with
  | nil => rfl
  | cons op ops ih =>
    rw [flatMap_cons, length_append, ih, BatchOp.length_logged, batchCount,
      batchCount, countP_cons, Nat.add_comm]

lemma BatchOp.logged_of_insertParts {op : BatchOp} {item : Key × Value}
    (h : op.insertParts = some item) : op.logged = [.insert item.1 item.2] := by
  cases op with
  | put key value | putIfAbsent key value | compareAndPut key expected value =>
    cases h
    rfl
  | _ => exact absurd h nofun

lemma BatchOp.ops_push (treeId : UInt64) {op : BatchOp} (h : op.insertParts = none) :
    (op.push treeId).flatMap Push.ops = op.logged.map (WalOp.primitive treeId) := by
  cases op with
  | put key value | putIfAbsent key value | compareAndPut key expected value =>
    exact absurd h nofun
  | _ => rfl

lemma BatchOp.shaped_push (treeId : UInt64) (op : BatchOp) : ∀ p ∈ op.push treeId, p.Shaped := by
  intro p hp
  cases op with
  | delete key | deleteIfVersion key expected | rename src dst force =>
    obtain rfl := mem_singleton.mp hp
    trivial
  | _ => exact absurd hp not_mem_nil

lemma insertItems_logged (treeId : UInt64) {run : List BatchOp}
    (h : ∀ o ∈ run, o.insertParts.isSome = true) :
    (insertItems run).map (fun item => PrimitiveOp.insert treeId item.1 item.2) =
      (run.flatMap BatchOp.logged).map (WalOp.primitive treeId) := by
  induction run with
  | nil => rfl
  | cons o run ih =>
    obtain ⟨item, hitem⟩ := Option.isSome_iff_exists.mp (h o mem_cons_self)
    have hrest := ih (forall_mem_cons.mp h).2
    rw [insertItems, filterMap_cons, hitem, flatMap_cons,
      BatchOp.logged_of_insertParts hitem, singleton_append, map_cons, map_cons]
    exact congrArg _ hrest

lemma InsertRunPlan.ops_push (plan : InsertRunPlan) (treeId : UInt64) {run : List BatchOp}
    (h : ∀ o ∈ run, o.insertParts.isSome = true) :
    (plan.push treeId run).ops = (run.flatMap BatchOp.logged).map (WalOp.primitive treeId) := by
  rw [← insertItems_logged treeId h, InsertRunPlan.push]
  cases plan.encoding with
  | fixed keyLen valueLen => rfl
  | prefixed prefixLen => rfl

section Pushes

variable (treeId : UInt64)

/-- The frames hold the logged operations of the batch. -/
theorem ops_batchPushes {fuel : ℕ} {ops : List BatchOp} (hfuel : ops.length ≤ fuel) :
    (batchPushes treeId fuel ops).flatMap Push.ops =
      (ops.flatMap BatchOp.logged).map (WalOp.primitive treeId) := by
  induction fuel generalizing ops with
  | zero =>
    obtain rfl := eq_nil_of_length_eq_zero (Nat.le_zero.mp hfuel)
    rfl
  | succ fuel ih =>
    cases ops with
    | nil => rfl
    | cons op rest =>
      cases hplan : insertRunPlan (op :: rest) with
      | some plan =>
        have hrun := plansRun_of_plan treeId hplan
        have hpos := hrun.pos
        have hrest : ((op :: rest).drop plan.len).length ≤ fuel := by
          rw [length_drop]
          omega
        simp only [batchPushes, hplan]
        rw [flatMap_cons, plan.ops_push treeId hrun.inserts, ih hrest, ← map_append,
          ← flatMap_append, take_append_drop]
      | none =>
        simp only [batchPushes, hplan]
        rw [flatMap_append, BatchOp.ops_push treeId (insertParts_eq_none hplan),
          ih (Nat.le_of_succ_le_succ hfuel), flatMap_cons, map_append]

lemma shaped_batchPushes (fuel : ℕ) (ops : List BatchOp) :
    ∀ p ∈ batchPushes treeId fuel ops, p.Shaped := by
  induction fuel generalizing ops with
  | zero => exact fun p hp => absurd hp not_mem_nil
  | succ fuel ih =>
    intro p hp
    cases ops with
    | nil => exact absurd hp not_mem_nil
    | cons op rest =>
      cases hplan : insertRunPlan (op :: rest) with
      | some plan =>
        simp only [batchPushes, hplan, mem_cons] at hp
        obtain rfl | hp := hp
        · exact (plansRun_of_plan treeId hplan).shaped
        · exact ih _ p hp
      | none =>
        simp only [batchPushes, hplan, mem_append] at hp
        obtain hp | hp := hp
        · exact op.shaped_push treeId p hp
        · exact ih _ p hp

end Pushes

/-! ## A run is applied operation by operation -/

section Inline

variable {art : VersionedMap}

lemma applyBatchWalkerInline_append (art : VersionedMap) (seq : ℕ) (xs ys : List BatchOp) :
    applyBatchWalkerInline art seq (xs ++ ys) =
      match applyBatchWalkerInline art seq xs with
      | (art', .error e) => (art', .error e)
      | (art', .ok logged) =>
        match applyBatchWalkerInline art' (seq + batchCount xs) ys with
        | (art'', .error e) => (art'', .error e)
        | (art'', .ok more) => (art'', .ok (logged ++ more)) := by
  induction xs generalizing art seq with
  | nil =>
    simp only [nil_append, applyBatchWalkerInline, batchCount, countP_nil, Nat.add_zero]
    rcases applyBatchWalkerInline art seq ys with ⟨art', e | logged⟩ <;> rfl
  | cons x xs ih =>
    simp only [cons_append, applyBatchWalkerInline]
    rcases applyBatchOp art seq x with ⟨art₁, e | first⟩
    · rfl
    · dsimp only
      rw [ih, nextSeq_add_batchCount]
      rcases applyBatchWalkerInline art₁ (x.nextSeq seq) xs with ⟨art₂, e | second⟩
      · rfl
      · dsimp only
        rcases applyBatchWalkerInline art₂ (seq + batchCount (x :: xs)) ys with ⟨art₃, e | third⟩
        · rfl
        · simp only [append_assoc]

lemma applyBatchOp_insert (art : VersionedMap) (seq : ℕ) {op : BatchOp} {item : Key × Value}
    (h : op.insertParts = some item) :
    ∃ condition, op.insertCondition = some condition ∧
      applyBatchOp art seq op =
        match art.insertConditional item.1 item.2 seq condition with
        | (art', true) => (art', .ok [.insert item.1 item.2])
        | (art', false) => (art', .error .internal) := by
  cases op with
  | put key value =>
    cases h
    exact ⟨.always, rfl, rfl⟩
  | putIfAbsent key value =>
    cases h
    exact ⟨.ifAbsent, rfl, rfl⟩
  | compareAndPut key expected value =>
    cases h
    exact ⟨.ifVersion expected, rfl, rfl⟩
  | _ => exact absurd h nofun

lemma batchCount_inserts {run : List BatchOp} (h : ∀ o ∈ run, o.insertParts.isSome = true) :
    batchCount run = run.length := by
  rw [batchCount, countP_eq_length]
  intro o ho
  have := h o ho
  cases o <;> first | rfl | exact absurd this (by simp [BatchOp.insertParts])

lemma applyBatchInsertRunWalker_eq (art : VersionedMap) (seq : ℕ) {run : List BatchOp}
    (h : ∀ o ∈ run, o.insertParts.isSome = true) :
    applyBatchInsertRunWalker art seq run =
      ((applyBatchWalkerInline art seq run).1,
        (applyBatchWalkerInline art seq run).2.map (fun _ => ())) := by
  induction run generalizing art seq with
  | nil => rfl
  | cons o run ih =>
    obtain ⟨item, hitem⟩ := Option.isSome_iff_exists.mp (h o mem_cons_self)
    obtain ⟨condition, hcondition, hop⟩ := applyBatchOp_insert art seq hitem
    have hnext : o.nextSeq seq = seq + 1 := by
      rw [BatchOp.nextSeq_eq, BatchOp.logged_of_insertParts hitem]
      rfl
    simp only [applyBatchInsertRunWalker, applyBatchWalkerInline, hitem, hcondition, hop, hnext]
    rcases art.insertConditional item.1 item.2 seq condition with ⟨art', _ | _⟩
    · rfl
    · dsimp only
      rw [ih art' (seq + 1) (forall_mem_cons.mp h).2]
      rcases applyBatchWalkerInline art' (seq + 1) run with ⟨art'', e | logged⟩ <;> rfl

/-- **The loop.**  It changes the tree as the operations do one by one, and makes the pushes of
the batch. -/
theorem applyBatchWalker_eq (treeId : UInt64) (art : VersionedMap) (seq : ℕ) {fuel : ℕ}
    {ops : List BatchOp} (hfuel : ops.length ≤ fuel) :
    applyBatchWalker treeId fuel art seq ops =
      ((applyBatchWalkerInline art seq ops).1,
        (applyBatchWalkerInline art seq ops).2.map (fun _ => batchPushes treeId fuel ops)) := by
  induction fuel generalizing art seq ops with
  | zero =>
    obtain rfl := eq_nil_of_length_eq_zero (Nat.le_zero.mp hfuel)
    rfl
  | succ fuel ih =>
    cases ops with
    | nil => rfl
    | cons op rest =>
      cases hplan : insertRunPlan (op :: rest) with
      | some plan =>
        have hrun := plansRun_of_plan treeId hplan
        have hpos := hrun.pos
        have hrest : ((op :: rest).drop plan.len).length ≤ fuel := by
          rw [length_drop]
          omega
        have hcount : batchCount ((op :: rest).take plan.len) = plan.len := by
          rw [batchCount_inserts hrun.inserts, length_take]
          exact min_eq_left hrun.le
        have hsplit := applyBatchWalkerInline_append art seq ((op :: rest).take plan.len)
          ((op :: rest).drop plan.len)
        rw [take_append_drop, hcount] at hsplit
        simp only [applyBatchWalker, batchPushes, hplan]
        rw [applyBatchInsertRunWalker_eq art seq hrun.inserts, hsplit]
        rcases applyBatchWalkerInline art seq ((op :: rest).take plan.len) with ⟨art', e | first⟩
        · rfl
        · dsimp only [Except.map]
          rw [ih art' (seq + plan.len) hrest]
          rcases applyBatchWalkerInline art' (seq + plan.len) ((op :: rest).drop plan.len) with
            ⟨art'', e | more⟩ <;> rfl
      | none =>
        simp only [applyBatchWalker, batchPushes, hplan, applyBatchWalkerInline]
        rcases applyBatchOp art seq op with ⟨art', e | first⟩
        · rfl
        · dsimp only
          rw [ih art' (op.nextSeq seq) (Nat.le_of_succ_le_succ hfuel)]
          rcases applyBatchWalkerInline art' (op.nextSeq seq) rest with ⟨art'', e | more⟩ <;> rfl

end Inline

end Tree
end Holt
