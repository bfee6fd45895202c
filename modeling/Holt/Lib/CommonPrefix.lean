import Mathlib.Data.List.Basic
import Mathlib.Data.List.Infix
import Mathlib.Tactic.Common

/-!
# Common prefixes of words

How far two words agree, and what stands at the place where they part.
-/

namespace CommonPrefix

variable {α : Type} [DecidableEq α]

/-- The number of letters on which two words agree from the start. -/
def agree : List α → List α → ℕ
  | a :: as, b :: bs => if a = b then agree as bs + 1 else 0
  | _, _ => 0

variable {xs ys zs : List α}

@[simp] lemma agree_nil_left : agree ([] : List α) ys = 0 := rfl

@[simp] lemma agree_nil_right : agree xs [] = 0 := by
  cases xs <;> rfl

lemma take_agree : xs.take (agree xs ys) = ys.take (agree xs ys) := by
  fun_induction agree xs ys with
  | case1 as b bs ih => simp [ih]
  | case2 => rfl
  | case3 => simp

lemma agree_eq_length_right : agree xs ys = ys.length ↔ ys <+: xs := by
  constructor
  · intro h
    have htake : xs.take (agree xs ys) = ys.take (agree xs ys) := take_agree
    rw [h, List.take_length] at htake
    exact htake ▸ List.take_prefix _ _
  · rintro ⟨zs, rfl⟩
    induction ys with
    | nil => simp
    | cons y ys ih => simp [agree, ih]

lemma agree_comm : agree xs ys = agree ys xs := by
  fun_induction agree xs ys with
  | case1 as b bs ih => simp [agree, ih]
  | case2 a as b bs hab => simp [agree, Ne.symm hab]
  | case3 xs ys hne =>
    cases xs with
    | nil => simp
    | cons a as =>
      cases ys with
      | nil => simp
      | cons b bs => exact (hne a as b bs rfl rfl).elim

lemma agree_eq_length_left : agree xs ys = xs.length ↔ xs <+: ys := by
  rw [agree_comm, agree_eq_length_right]

lemma agree_concat {b : α} : agree (xs ++ [b]) ys =
    if agree xs ys < xs.length ∨ agree xs ys = ys.length then agree xs ys
    else agree xs ys + if ys[agree xs ys]? = some b then 1 else 0 := by
  induction xs generalizing ys with
  | nil => cases ys <;> simp [agree, eq_comm]
  | cons x xs ih => cases ys <;> grind [agree]

/-- Where two words part. -/
lemma exists_parting (hx : agree xs ys ≠ xs.length) (hy : agree xs ys ≠ ys.length) :
    ∃ s a b xs' ys', a ≠ b ∧ xs = s ++ a :: xs' ∧ ys = s ++ b :: ys' ∧ agree xs ys = s.length := by
  fun_induction agree xs ys with
  | case1 as b bs ih =>
    obtain ⟨s, x, y, xs', ys', hne, rfl, rfl, h⟩ := ih (by simpa using hx) (by simpa using hy)
    exact ⟨b :: s, x, y, xs', ys', hne, rfl, rfl, by simp [h]⟩
  | case2 a as b bs hab => exact ⟨[], a, b, as, bs, hab, rfl, rfl, rfl⟩
  | case3 xs ys hne => cases xs <;> cases ys <;> grind

end CommonPrefix
