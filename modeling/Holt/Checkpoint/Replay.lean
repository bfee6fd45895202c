import Holt.Checkpoint.Session

/-!
# Replay of a log

`replay_wal` redoes logged operations on what it finds.  On a map from keys to values this is
`redo`; it differs from applying the operations as they were acknowledged (`acknowledge`) only
for renames, which look at their source and destination first.

`redo_exact` says when the difference does not matter: a log whose operations were accepted
when they were made, and whose renames only meet keys that an earlier record has replaced,
makes every key it replaces right, from any start.  `values_reopen` brings `reopen` on blobs
down to `redo`.
-/

namespace Holt
namespace Checkpoint

open Function List PrefixForest Holt.Tree

/-! ## Replay on maps -/

/-- The values a forest gives the keys. -/
def values {γ : Type*} (blobs : Blobs γ) (root : γ) (key : Key) : Option Value :=
  (lookupBlobs blobs root key).map Record.value

/-- One operation of `replay_wal` on a map from keys to values. -/
def redo (m : Key → Option Value) : WalOp → (Key → Option Value)
  | .insert key value => Function.update m key (some value)
  | .erase key => Function.update m key none
  | .rename src dst force =>
    match m src with
    | none => m
    | some value =>
      if force = false ∧ (m dst).isSome then m
      else Function.update (Function.update m src none) dst (some value)

/-- The operation was not refused: a rename found its source, and its destination free. -/
def Accepted (m : Key → Option Value) : WalOp → Prop
  | .rename src dst force =>
    m src ≠ none ∧ (src ≠ dst → force = false → m dst = none)
  | _ => True

/-- Every operation was accepted when it was made. -/
def AllAccepted (m : Key → Option Value) : List WalOp → Prop
  | [] => True
  | op :: rest => Accepted m op ∧ AllAccepted (acknowledge m op) rest

variable {m : Key → Option Value}

lemma allAccepted_append {xs ys : List WalOp} (hxs : AllAccepted m xs)
    (hys : AllAccepted (xs.foldl acknowledge m) ys) : AllAccepted m (xs ++ ys) := by
  induction xs generalizing m with
  | nil => exact hys
  | cons x xs ih => exact ⟨hxs.1, ih hxs.2 hys⟩

variable {op : WalOp} {key : Key}

lemma acknowledge_of_not_replaces (h : replaces key op = false) : acknowledge m op key = m key := by
  cases op with
  | insert k value =>
    exact update_of_ne (by simpa [replaces] using h) _ _
  | erase k => exact update_of_ne (by simpa [replaces] using h) _ _
  | rename src dst force =>
    simp only [acknowledge]
    split_ifs with heq
    · rfl
    · simp only [replaces, ne_eq, heq, not_false_eq_true, true_and, decide_eq_false_iff_not,
        not_or] at h
      rw [update_of_ne h.2, update_of_ne h.1]

lemma redo_of_not_replaces (h : replaces key op = false) : redo m op key = m key := by
  cases op with
  | insert k value =>
    exact update_of_ne (by simpa [replaces] using h) _ _
  | erase k => exact update_of_ne (by simpa [replaces] using h) _ _
  | rename src dst force =>
    simp only [redo]
    cases hsrc : m src with
    | none => rfl
    | some value =>
      simp only
      split_ifs with hdst
      · rfl
      · by_cases heq : src = dst
        · -- a key renamed onto itself gets its own value back
          subst heq
          rcases eq_or_ne key src with rfl | hne
          · rw [update_self, hsrc]
          · rw [update_of_ne hne, update_of_ne hne]
        · simp only [replaces, ne_eq, heq, not_false_eq_true, true_and, decide_eq_false_iff_not,
            not_or] at h
          rw [update_of_ne h.2, update_of_ne h.1]

variable {r : Key → Option Value}

/-- A replaced key is right after a covered operation, whatever it was before. -/
lemma redo_of_replaces (hacc : Accepted m op)
    (hcov : ∀ src dst force, op = .rename src dst force → src ≠ dst →
      r src = m src ∧ (force = false → r dst = m dst)) (h : replaces key op = true) :
    redo r op key = acknowledge m op key := by
  cases op with
  | insert k value | erase k =>
    obtain rfl : key = k := by simpa [replaces] using h
    simp [redo, acknowledge]
  | rename src dst force =>
    simp only [replaces, decide_eq_true_eq] at h
    obtain ⟨hne, hkey⟩ := h
    obtain ⟨hsrc, hdst⟩ := hcov src dst force rfl hne
    obtain ⟨value, hvalue⟩ := Option.ne_none_iff_exists'.mp hacc.1
    have hfree : ¬ (force = false ∧ (r dst).isSome = true) := by
      rintro ⟨hf, hsome⟩
      rw [hdst hf, hacc.2 hne hf] at hsome
      exact Bool.noConfusion hsome
    simp only [redo, hsrc, hvalue, if_neg hfree, acknowledge, if_neg hne]
    rcases hkey with rfl | rfl
    · rw [update_of_ne hne, update_self, update_of_ne hne,
        update_self]
    · rw [update_self, update_self]

variable {seen : List WalOp}

/-- One covered operation keeps every key right that has been replaced so far, and makes the
keys it replaces right. -/
lemma redo_covered {rest : List WalOp} (hacc : Accepted m op)
    (hcov : renamesCovered seen (op :: rest) = true)
    (hseen : ∀ key, seen.any (replaces key) = true → r key = m key) (key : Key)
    (hkey : (seen ++ [op]).any (replaces key) = true) : redo r op key = acknowledge m op key := by
  rw [any_append, Bool.or_eq_true] at hkey
  by_cases hop : replaces key op = true
  · refine redo_of_replaces hacc ?_ hop
    rintro src dst force rfl hne
    simp only [renamesCovered, hne, Bool.or_eq_true, decide_false, Bool.false_eq_true, false_or,
      Bool.and_eq_true] at hcov
    exact ⟨hseen src hcov.1.1, fun hf => hseen dst (hcov.1.2.resolve_left (by simp [hf]))⟩
  · rw [Bool.not_eq_true] at hop
    rw [redo_of_not_replaces hop, acknowledge_of_not_replaces hop]
    refine hseen key (hkey.resolve_right ?_)
    simp [hop]

lemma renamesCovered_tail {rest : List WalOp} (hcov : renamesCovered seen (op :: rest) = true) :
    renamesCovered (seen ++ [op]) rest = true := by
  simp only [renamesCovered, Bool.and_eq_true] at hcov
  exact hcov.2

variable {ops : List WalOp}

/-- Replay ends right on every key that the log replaces. -/
theorem redo_exact (hacc : AllAccepted m ops) (hcov : renamesCovered seen ops = true)
    (hseen : ∀ key, seen.any (replaces key) = true → r key = m key) (key : Key)
    (hkey : (seen ++ ops).any (replaces key) = true) :
    ops.foldl redo r key = ops.foldl acknowledge m key := by
  induction ops generalizing m r seen with
  | nil => exact hseen key (by simpa using hkey)
  | cons op rest ih =>
    rw [foldl_cons, foldl_cons]
    exact ih hacc.2 (renamesCovered_tail hcov) (redo_covered hacc.1 hcov hseen)
      (by simpa using hkey)

lemma foldl_redo_of_not_replaced (h : ops.any (replaces key) = false) :
    ops.foldl redo r key = r key := by
  induction ops generalizing r with
  | nil => rfl
  | cons op rest ih =>
    rw [any_cons, Bool.or_eq_false_iff] at h
    rw [foldl_cons, ih h.2, redo_of_not_replaces h.1]

lemma foldl_acknowledge_of_not_replaced (h : ops.any (replaces key) = false) :
    ops.foldl acknowledge m key = m key := by
  induction ops generalizing m with
  | nil => rfl
  | cons op rest ih =>
    rw [any_cons, Bool.or_eq_false_iff] at h
    rw [foldl_cons, ih h.2, acknowledge_of_not_replaces h.1]

/-! ## Replay on blobs -/

lemma searchKey_inj {a b : Key} : searchKey a = searchKey b ↔ a = b := by
  simp [searchKey]

section Blobs

variable {γ : Type*} [DecidableEq γ] {region : γ → List Byte} {root : γ} {blobs : Blobs γ}

variable (hr : Rooted region blobs root)
include hr

lemma lookupBlobs_write (key k : Key) (r : Option Record) :
    lookupBlobs (PrefixForest.write blobs root (searchKey key) r) root k =
      if k = key then r else lookupBlobs blobs root k := by
  rw [lookupBlobs, hr.contents_write]
  split_ifs with h
  · rw [h, update_self]
  · rw [update_of_ne (fun he => h (searchKey_inj.mp he)), lookupBlobs]

lemma values_write (key : Key) (r : Option Record) :
    values (PrefixForest.write blobs root (searchKey key) r) root =
      update (values blobs root) key (r.map Record.value) := by
  funext k
  rw [values, lookupBlobs_write hr]
  split_ifs with h
  · rw [h, update_self]
  · rw [update_of_ne h, values]

/-- Replaying an operation on blobs is redoing it on their values. -/
lemma values_replayOnBlobs (seq : ℕ) (op : WalOp) :
    values (replayOnBlobs root blobs seq op) root = redo (values blobs root) op := by
  cases op with
  | insert key value | erase key => exact values_write hr key _
  | rename src dst force =>
    simp only [replayOnBlobs, redo, values]
    cases hsrc : lookupBlobs blobs root src with
    | none => rfl
    | some record =>
      simp only [Option.map_some, Option.isSome_map]
      split_ifs with hdst
      · rfl
      · rw [values_write (hr.write _ _), values_write hr]
        rfl

lemma rooted_replayOnBlobs (seq : ℕ) (op : WalOp) :
    Rooted region (replayOnBlobs root blobs seq op) root := by
  cases op with
  | insert key value | erase key => exact hr.write _ _
  | rename src dst force =>
    simp only [replayOnBlobs]
    cases lookupBlobs blobs root src with
    | none => exact hr
    | some record =>
      simp only
      split_ifs
      · exact hr
      · exact (hr.write _ _).write _ _

lemma values_reopen (wal : List WalRecord) :
    values (reopen root blobs wal) root =
      ((walOps wal).map Prod.snd).foldl redo (values blobs root) := by
  unfold reopen
  generalize walOps wal = ops
  induction ops generalizing blobs with
  | nil => rfl
  | cons op rest ih =>
    rw [foldl_cons, ih (rooted_replayOnBlobs hr _ _), values_replayOnBlobs hr, map_cons,
      foldl_cons]

end Blobs

end Checkpoint
end Holt
