import Holt.Tree.AtomicBatch

/-!
# Batches and the sizes of their records

A leaf stores the length of its key, with the terminator, and the length of its value in 16
bits each.  `preflight_batch_op` of `api/tree.rs` therefore validates the shape of every record
a batch would insert: the record of a put before its guard is looked at, and the record a
rename moves after its two guards.  These are the checks of `Holt.Tree.AtomicBatch` with the
sizes added.
-/

namespace Holt
namespace Tree

/-- The errors of a write, with those of a record that cannot be stored. -/
inductive WriteError
  | keyTooLong (len : ℕ)
  | valueTooLong (len : ℕ)
  | base (e : Error)
deriving DecidableEq

/-- `u16::MAX`. -/
def maxFieldLen : ℕ := 65535

/-- `Tree::validate_insert_shape`. -/
def validateInsertShape (key : Key) (value : Value) : Except WriteError Unit :=
  if maxFieldLen < key.length + 1 then .error (.keyTooLong (key.length + 1))
  else if maxFieldLen < value.length then .error (.valueTooLong value.length)
  else .ok ()

section Preflight

variable (art : VersionedMap) (pending : List DeltaOp)

/-- `preflight_batch_op`: the overlay afterwards, or `none` if a guard fails. -/
def preflightSizedOp (overlay : BatchOverlay) (seq : ℕ) (op : BatchOp) :
    Except WriteError (Option BatchOverlay) :=
  match op with
  | .put key value | .putIfAbsent key value | .compareAndPut key _ value =>
    match validateInsertShape key value with
    | .error e => .error e
    | .ok () => (preflightBatchOp art pending overlay seq op).mapError .base
  | .rename src dst _ =>
    match preflightBatchOp art pending overlay seq op, projectedRecord art pending overlay src with
    | .error e, _ => .error (.base e)
    | .ok after, none => .ok after
    | .ok after, some record =>
      if src = dst then .ok after
      else
        match validateInsertShape dst record.value with
        | .error e => .error e
        | .ok () => .ok after
  | _ => (preflightBatchOp art pending overlay seq op).mapError .base

/-- The guarded loop of `preflight_batch`. -/
def preflightSizedOps (overlay : BatchOverlay) (seq : ℕ) : List BatchOp → Except WriteError Bool
  | [] => .ok true
  | op :: rest =>
    match preflightSizedOp art pending overlay seq op with
    | .error e => .error e
    | .ok none => .ok false
    | .ok (some overlay') => preflightSizedOps overlay' (op.nextSeq seq) rest

/-- `preflight_guard_free_batch`. -/
def preflightGuardFreeBatch : List BatchOp → Except WriteError Unit
  | [] => .ok ()
  | .put key value :: rest =>
    match validateInsertShape key value with
    | .error e => .error e
    | .ok () => preflightGuardFreeBatch rest
  | _ :: rest => preflightGuardFreeBatch rest

/-- `preflight_batch`. -/
def preflightSizedBatch (seq : ℕ) (ops : List BatchOp) : Except WriteError Bool :=
  if batchIsGuardFree ops then (preflightGuardFreeBatch ops).map (fun _ => true)
  else preflightSizedOps art pending ∅ seq ops

end Preflight

/-! ## What the shape checks leave of the preflight -/

section Spec

variable {art : VersionedMap} {pending : List DeltaOp}

lemma ok_of_mapError {α : Type} {x : Except Error α} {a : α}
    (h : x.mapError WriteError.base = .ok a) : x = .ok a := by
  cases x with
  | error e => exact absurd h nofun
  | ok b => simpa [Except.mapError] using h

variable {seq : ℕ}

lemma preflightBatchOp_of_sized {overlay overlay' : BatchOverlay} {op : BatchOp}
    (h : preflightSizedOp art pending overlay seq op = .ok (some overlay')) :
    preflightBatchOp art pending overlay seq op = .ok (some overlay') := by
  cases op with
  | put key value | putIfAbsent key value | compareAndPut key expected value =>
    simp only [preflightSizedOp] at h
    cases hshape : validateInsertShape key value with
    | error e => simp [hshape] at h
    | ok u => exact ok_of_mapError (by simpa [hshape] using h)
  | rename src dst force =>
    simp only [preflightSizedOp] at h
    cases hop : preflightBatchOp art pending overlay seq (.rename src dst force) with
    | error e => simp [hop] at h
    | ok after =>
      cases hsrc : projectedRecord art pending overlay src with
      | none => simpa [hop, hsrc] using h
      | some record =>
        simp only [hop, hsrc] at h
        by_cases heq : src = dst
        · simpa [heq] using h
        · rw [if_neg heq] at h
          cases hshape : validateInsertShape dst record.value with
          | error e => simp [hshape] at h
          | ok u => simpa [hshape] using h
  | delete key | deleteIfVersion key expected | assertVersion key expected | assertAbsent key =>
    exact ok_of_mapError h
  | assertPrefixEmpty pre => exact ok_of_mapError h

lemma preflightBatchOps_of_sized {overlay : BatchOverlay} {ops : List BatchOp}
    (h : preflightSizedOps art pending overlay seq ops = .ok true) :
    preflightBatchOps art pending overlay seq ops = .ok true := by
  induction ops generalizing overlay seq with
  | nil => rfl
  | cons op rest ih =>
    simp only [preflightSizedOps] at h
    cases hop : preflightSizedOp art pending overlay seq op with
    | error e => simp [hop] at h
    | ok after =>
      cases after with
      | none => simp [hop] at h
      | some overlay' =>
        simp only [hop] at h
        simp only [preflightBatchOps, preflightBatchOp_of_sized hop]
        exact ih h

/-- On a tree with nothing staged, a batch that passes its preflight is specified. -/
lemma specBatch_of_preflightSizedBatch {ops : List BatchOp}
    (h : preflightSizedBatch art [] seq ops = .ok true) :
    ∃ m, specBatch art seq ops = .ok (some m) := by
  have hpass : preflightBatch art [] seq ops = .ok true := by
    unfold preflightSizedBatch at h
    unfold preflightBatch
    by_cases hfree : batchIsGuardFree ops = true
    · rw [if_pos hfree]
    · rw [if_neg hfree] at h ⊢
      exact preflightBatchOps_of_sized h
  have hstaged : StagedOnce [] := List.nodup_nil
  rw [preflightBatch_eq hstaged seq ops nofun] at hpass
  cases hspec : specBatch art seq ops with
  | error e =>
    rw [show applyWriteDeltaOps art [] = art from rfl, hspec] at hpass
    exact absurd hpass nofun
  | ok m =>
    rw [show applyWriteDeltaOps art [] = art from rfl, hspec] at hpass
    obtain ⟨m', rfl⟩ := Option.isSome_iff_exists.mp (Except.ok.inj hpass)
    exact ⟨m', rfl⟩

end Spec

end Tree
end Holt
