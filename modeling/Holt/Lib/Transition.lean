import Mathlib.Tactic

/-!
# Labelled transition systems with executable steps

A concurrent component is given by one partial step function `step : σ → α → Option σ`: an
action names the party that moves and what it does, and `none` says that the action is not
enabled.  An interleaving of the parties is then a list of actions, and "for every
interleaving" is quantification over such lists.

`exec` runs a schedule, `Path` is the same run as a relation whose steps may each be
constrained by a `guard` on the state they are taken in, and `Path.invariant` is the one
induction every safety result uses: what a guarded step preserves, a guarded run
preserves.
-/

namespace Transition

variable {σ α : Type*} {step : σ → α → Option σ}

/-- A step that is guarded by a test. -/
lemma guard_eq_some {c : Prop} [Decidable c] {s t : σ} :
    (if c then some s else none) = some t ↔ c ∧ s = t := by
  rw [Option.ite_none_right_eq_some, Option.some.injEq]

/-- Run a schedule from `s`; `none` as soon as one of its actions is not enabled. -/
def exec (step : σ → α → Option σ) : σ → List α → Option σ
  | s, [] => some s
  | s, a :: as => (step s a).bind (fun s' => exec step s' as)

@[simp] lemma exec_nil (s : σ) : exec step s [] = some s := rfl

@[simp] lemma exec_cons (s : σ) (a : α) (as : List α) :
    exec step s (a :: as) = (step s a).bind (fun s' => exec step s' as) := rfl

/-- A run from `s` to `t` along the schedule `as`, each of whose steps is enabled and meets
`guard` in the state it is taken in. -/
inductive Path (step : σ → α → Option σ) (guard : σ → α → Prop) : σ → List α → σ → Prop
  | nil (s : σ) : Path step guard s [] s
  | cons {s s' t : σ} {a : α} {as : List α} (hguard : guard s a) (hstep : step s a = some s')
      (hrest : Path step guard s' as t) : Path step guard s (a :: as) t

/-- A run with no constraint on its steps. -/
abbrev FreePath (step : σ → α → Option σ) : σ → List α → σ → Prop :=
  Path step (fun _ _ => True)

variable {guard : σ → α → Prop}

/-- The invariant rule: what every guarded step preserves holds at the end of every guarded
run. -/
theorem Path.invariant {I : σ → Prop}
    (hstep : ∀ s a s', I s → guard s a → step s a = some s' → I s')
    {s t : σ} {as : List α} (hrun : Path step guard s as t) (hs : I s) : I t := by
  induction hrun with
  | nil s => exact hs
  | cons hg hst _ ih => exact ih (hstep _ _ _ hs hg hst)

/-- Weakening the guard of a run. -/
theorem Path.mono {guard' : σ → α → Prop} (h : ∀ s a, guard s a → guard' s a)
    {s t : σ} {as : List α} (hrun : Path step guard s as t) : Path step guard' s as t := by
  induction hrun with
  | nil s => exact .nil s
  | cons hg hst _ ih => exact .cons (h _ _ hg) hst ih

/-- The first part of a guarded run is guarded. -/
theorem Path.of_append {s t u : σ} {as bs : List α} (hrun : Path step guard s (as ++ bs) t)
    (hu : FreePath step s as u) : Path step guard s as u := by
  induction as generalizing s with
  | nil =>
    cases hu
    exact .nil _
  | cons a as ih =>
    obtain _ | ⟨-, hstep, hrest⟩ := hu
    obtain _ | ⟨hg, hstep', hrun⟩ := hrun
    cases hstep.symm.trans hstep'
    exact .cons hg hstep (ih hrun hrest)

/-- An executed schedule is an unconstrained run. -/
theorem freePath_of_exec {s t : σ} {as : List α} (h : exec step s as = some t) :
    FreePath step s as t := by
  induction as generalizing s with
  | nil =>
    obtain rfl : s = t := by simpa using h
    exact .nil s
  | cons a as ih =>
    simp only [exec_cons, Option.bind_eq_some_iff] at h
    obtain ⟨s', hs', hrest⟩ := h
    exact .cons trivial hs' (ih hrest)

/-- A schedule whose final state passes a check is a run to such a state. -/
theorem exists_of_exec_any {p : σ → Bool} {s : σ} {as : List α}
    (h : (exec step s as).any p = true) : ∃ t, exec step s as = some t ∧ p t = true := by
  cases hexec : exec step s as with
  | none => simp [hexec] at h
  | some t => exact ⟨t, rfl, by simpa [hexec] using h⟩

/-- Decide along a schedule that every step is enabled and meets a decidable guard, and at its
end that a decidable goal is reached. -/
def guardedTo (step : σ → α → Option σ) (guard : σ → α → Prop) [∀ s a, Decidable (guard s a)]
    (goal : σ → Prop) [DecidablePred goal] : σ → List α → Bool
  | s, [] => decide (goal s)
  | s, a :: as =>
    decide (guard s a) && (match step s a with
      | none => false
      | some s' => guardedTo step guard goal s' as)

theorem path_of_guardedTo [∀ s a, Decidable (guard s a)] {goal : σ → Prop} [DecidablePred goal]
    {s : σ} {as : List α} (h : guardedTo step guard goal s as = true) :
    ∃ t, exec step s as = some t ∧ Path step guard s as t ∧ goal t := by
  induction as generalizing s with
  | nil => exact ⟨s, rfl, .nil s, of_decide_eq_true h⟩
  | cons a as ih =>
    simp only [guardedTo, Bool.and_eq_true, decide_eq_true_eq] at h
    obtain ⟨hg, hrest⟩ := h
    cases hst : step s a with
    | none => simp [hst] at hrest
    | some s' =>
      rw [hst] at hrest
      obtain ⟨t, hexec, hpath, hgoal⟩ := ih hrest
      exact ⟨t, by simp [hst, hexec], .cons hg hst hpath, hgoal⟩

end Transition
