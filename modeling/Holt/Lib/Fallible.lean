import Mathlib.Tactic

/-!
# Programs that keep their state when they fail

A program over a mutable state that stops at its first error leaves the state as it was at that
point: what it has changed before is still there.  Such a program is an `ExceptT` over a state
monad, in this order.  `Ends x s Q E` says how a program started in `s` ends: with a result and
a state that meet `Q`, or with an error and a state that meet `E`.  The rules below take a
program apart in the order it runs.
-/

namespace Fallible

variable {σ ε α β : Type}

/-- A program with state `σ` and errors `ε`. -/
abbrev Prog (σ ε α : Type) := ExceptT ε (StateM σ) α

/-- The outcome of a program and the state it leaves. -/
def exec (x : Prog σ ε α) (s : σ) : Except ε α × σ := x.run s

/-- The program ends with a result and a state that meet `Q`, or fails and meets `E`. -/
def Ends (x : Prog σ ε α) (s : σ) (Q : α → σ → Prop) (E : ε → σ → Prop) : Prop :=
  match exec x s with
  | (.ok a, s') => Q a s'
  | (.error e, s') => E e s'

variable {x : Prog σ ε α} {f : α → Prog σ ε β} {s s' : σ} {Q : α → σ → Prop} {E : ε → σ → Prop}

lemma ends_pure {a : α} (h : Q a s) : Ends (pure a) s Q E := h

lemma ends_throw {e : ε} (h : E e s) : Ends (throw e : Prog σ ε α) s Q E := h

lemma exec_bind (x : Prog σ ε α) (f : α → Prog σ ε β) (s : σ) :
    exec (x >>= f) s =
      match exec x s with
      | (.ok a, s') => exec (f a) s'
      | (.error e, s') => (.error e, s') := by
  have hrun : exec (x >>= f) s = ExceptT.bindCont f (exec x s).1 (exec x s).2 := rfl
  rw [hrun]
  obtain ⟨_ | a, s'⟩ := exec x s
  · rfl
  · rfl

lemma Ends.bind {R : β → σ → Prop} (hx : Ends x s Q E)
    (hf : ∀ a s', Q a s' → Ends (f a) s' R E) : Ends (x >>= f) s R E := by
  unfold Ends at hx ⊢
  rw [exec_bind]
  revert hx
  obtain ⟨e | a, s'⟩ := exec x s
  · exact id
  · exact hf a s'

lemma Ends.mono {Q' : α → σ → Prop} {E' : ε → σ → Prop} (hx : Ends x s Q E)
    (hQ : ∀ a s', Q a s' → Q' a s') (hE : ∀ e s', E e s' → E' e s') : Ends x s Q' E' := by
  unfold Ends at hx ⊢
  revert hx
  obtain ⟨e | a, s'⟩ := exec x s
  · exact hE e s'
  · exact hQ a s'

lemma ends_map {g : α → β} {R : β → σ → Prop} (hx : Ends x s (fun a => R (g a)) E) :
    Ends (g <$> x) s R E := by
  rw [← bind_pure_comp]
  exact hx.bind fun a s' h => ends_pure h

lemma ends_get_bind {k : σ → Prog σ ε α} (h : Ends (k s) s Q E) : Ends (get >>= k) s Q E := h

lemma ends_modify_bind {g : σ → σ} {k : PUnit → Prog σ ε α} (h : Ends (k ⟨⟩) (g s) Q E) :
    Ends (modify g >>= k) s Q E := h

/-- What is known of every outcome is known of the one that occurred. -/
lemma Ends.of_ok {a : α} (hx : Ends x s Q E) (h : exec x s = (.ok a, s')) : Q a s' := by
  unfold Ends at hx
  rw [h] at hx
  exact hx

lemma Ends.of_error {e : ε} (hx : Ends x s Q E) (h : exec x s = (.error e, s')) : E e s' := by
  unfold Ends at hx
  rw [h] at hx
  exact hx

lemma ends_ite {c : Prop} [Decidable c] {y : Prog σ ε α} (hx : c → Ends x s Q E)
    (hy : ¬ c → Ends y s Q E) : Ends (if c then x else y) s Q E := by
  by_cases h : c
  · rw [if_pos h]
    exact hx h
  · rw [if_neg h]
    exact hy h

end Fallible
