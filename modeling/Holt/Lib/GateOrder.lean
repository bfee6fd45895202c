import Holt.Lib.GateProgram

/-!
# Gates taken in ascending order

When every thread enters gates in ascending order of a rank, no set of threads can wait for each
other in a circle (`no_circular_wait`).  A thread that waits to get into a gate waits below one
that drains it, and a thread that is in a gate waits at a gate of higher rank: in every finite
set of threads one waits highest, and it waits for none of them.

`Ascending` is the form of `Bracketed` in which a thread enters only gates above those it is in.
-/

namespace GateProgram

variable {G A R σ : Type} [DecidableEq G] {ρ : Type} [LinearOrder ρ]

/-- The instructions leave every gate, those of `held` included, and enter only gates above all
they are in; an action comes where it is `ready`. -/
def Ascending (rank : G → ρ) (ready : A → Held G → Prop) : Held G → List (Instr G A) → Prop
  | held, [] => held = Held.none
  | held, .enterShared g :: rest => (∀ g' ∈ held.all, rank g' < rank g) ∧
    Ascending rank ready { held with shared := g :: held.shared } rest
  | held, .setWrite g :: rest => (∀ g' ∈ held.all, rank g' < rank g) ∧
    Ascending rank ready { held with claimed := g :: held.claimed } rest
  | held, .drain g :: rest =>
    ((g ∈ held.claimed ∧ g ∉ held.shared) ∧ ∀ g' ∈ held.all, g' ≠ g → rank g' < rank g) ∧
    Ascending rank ready
      { held with claimed := held.claimed.erase g, exclusive := g :: held.exclusive } rest
  | held, .leaveShared g :: rest =>
    g ∈ held.shared ∧ Ascending rank ready { held with shared := held.shared.erase g } rest
  | held, .leaveExclusive g :: rest =>
    g ∈ held.exclusive ∧
      Ascending rank ready { held with exclusive := held.exclusive.erase g } rest
  | held, .act a :: rest => ready a held ∧ Ascending rank ready held rest

variable {rank : G → ρ} {ready : A → Held G → Prop} {held : Held G} {instr : Instr G A}
  {rest : List (Instr G A)}

lemma Ascending.append {l : List (Instr G A)} (hl : Ascending rank ready held l)
    (hrest : Ascending rank ready Held.none rest) : Ascending rank ready held (l ++ rest) := by
  induction l generalizing held with
  | nil => exact hl ▸ hrest
  | cons instr l ih =>
    cases instr with
    | enterShared | setWrite | drain | leaveShared | leaveExclusive | act =>
      exact ⟨hl.1, ih hl.2⟩

/-- An instruction of an ascending thread leaves it ascending, if its action does. -/
lemma Ascending.fire {act : σ → A → σ × List (Instr G A)} {gates : G → Gate} {store : σ}
    {r : (G → Gate) × σ × Thread G A}
    (hact : ∀ a, instr = .act a → ready a held → Ascending rank ready held rest →
      Ascending rank ready held ((act store a).2 ++ rest))
    (ht : Ascending rank ready held (instr :: rest))
    (h : GateProgram.fire act gates store held rest instr = some r) :
    Ascending rank ready r.2.2.held r.2.2.todo := by
  cases instr with
  | enterShared g | setWrite g =>
    obtain ⟨gate, -, rfl⟩ := Option.map_eq_some_iff.mp h
    exact ht.2
  | drain g | leaveShared g | leaveExclusive g =>
    obtain ⟨-, rfl⟩ := Transition.guard_eq_some.mp h
    exact ht.2
  | act a =>
    cases h
    exact hact a rfl ht.1 ht.2

/-! ## Waiting in a circle -/

/-- A thread waits for another: it wants to get into a gate whose write bit the other has set, or
to drain a gate the other is in. -/
def WaitsFor (s : State G A σ) (i j : ℕ) : Prop :=
  ∃ t u instr rest g, s.threads[i]? = some t ∧ s.threads[j]? = some u ∧ t.todo = instr :: rest ∧
    ((instr.enters = some g ∧ g ∈ u.held.owns) ∨ (instr = .drain g ∧ g ∈ u.held.shared))

/-- The gate a thread is about to enter or to drain, and which of the two. -/
def Thread.waitsAt (t : Thread G A) : Option (G × Bool) :=
  match t.todo with
  | .enterShared g :: _ => some (g, false)
  | .setWrite g :: _ => some (g, false)
  | .drain g :: _ => some (g, true)
  | _ => none

omit [DecidableEq G] in
lemma Thread.waitsAt_of_enters {t : Thread G A} (htodo : t.todo = instr :: rest) {g : G}
    (hg : instr.enters = some g) : t.waitsAt = some (g, false) := by
  cases instr with
  | enterShared g' | setWrite g' =>
    cases hg
    simp [waitsAt, htodo]
  | drain | leaveShared | leaveExclusive | act => simp [Instr.enters] at hg

/-- An ascending thread waits above the gates it is in, or drains the highest of them. -/
lemma Ascending.waitsAt {t : Thread G A} (h : Ascending rank ready t.held t.todo) {g g' : G}
    {draining : Bool} (hat : t.waitsAt = some (g, draining)) (hg' : g' ∈ t.held.all) :
    rank g' < rank g ∨ (draining = true ∧ g' = g ∧ g ∉ t.held.shared) := by
  obtain ⟨held, todo⟩ := t
  simp only [Thread.waitsAt] at hat
  split at hat
  case h_1 g₁ rest =>
    cases hat
    exact .inl (h.1 g' hg')
  case h_2 g₁ rest =>
    cases hat
    exact .inl (h.1 g' hg')
  case h_3 g₁ rest =>
    obtain ⟨rfl, rfl⟩ := Prod.mk.injEq .. ▸ Option.some.inj hat
    by_cases heq : g' = g₁
    · exact .inr ⟨rfl, heq, h.1.1.2⟩
    · exact .inl (h.1.2 g' hg' heq)
  case h_4 => exact absurd hat nofun

/-- How high a thread waits. -/
def height (rank : G → ρ) (s : State G A σ) (i : ℕ) : WithBot (ρ ×ₗ Bool) :=
  match s.threads[i]?.bind Thread.waitsAt with
  | none => ⊥
  | some (g, draining) => (toLex (rank g, draining) : ρ ×ₗ Bool)

lemma height_lt {s : State G A σ} (hs : ∀ t ∈ s.threads, Ascending rank ready t.held t.todo)
    {i j k : ℕ} (hij : WaitsFor s i j) (hjk : WaitsFor s j k) :
    height rank s i < height rank s j := by
  obtain ⟨t, u, instr, rest, g, hi, hj, htodo, hwaits⟩ := hij
  obtain ⟨u', _, instr', rest', g', hj', _, htodo', hwaits'⟩ := hjk
  cases hj.symm.trans hj'
  have hu := hs u (List.mem_of_getElem? hj)
  obtain ⟨draining', hat'⟩ : ∃ draining', u.waitsAt = some (g', draining') := by
    rcases hwaits' with ⟨henters, -⟩ | ⟨rfl, -⟩
    · exact ⟨false, Thread.waitsAt_of_enters htodo' henters⟩
    · exact ⟨true, by simp [Thread.waitsAt, htodo']⟩
  have hheight' : height rank s j = (toLex (rank g', draining') : ρ ×ₗ Bool) := by
    simp only [height, hj, Option.bind_some, hat']
  rcases hwaits with ⟨henters, howns⟩ | ⟨rfl, hshared⟩
  · have hheight : height rank s i = (toLex (rank g, false) : ρ ×ₗ Bool) := by
      simp only [height, hi, Option.bind_some, Thread.waitsAt_of_enters htodo henters]
    rw [hheight, hheight', WithBot.coe_lt_coe, Prod.Lex.toLex_lt_toLex]
    rcases hu.waitsAt hat' (List.mem_append_right _ howns) with hlt | ⟨rfl, rfl, -⟩
    · exact .inl hlt
    · exact .inr ⟨rfl, Bool.false_lt_true⟩
  · have hheight : height rank s i = (toLex (rank g, true) : ρ ×ₗ Bool) := by
      simp only [height, hi, Option.bind_some, Thread.waitsAt, htodo]
    rw [hheight, hheight', WithBot.coe_lt_coe, Prod.Lex.toLex_lt_toLex]
    rcases hu.waitsAt hat' (List.mem_append_left _ hshared) with hlt | ⟨rfl, rfl, hnot⟩
    · exact .inl hlt
    · exact absurd hshared hnot

/-- No set of ascending threads waits in a circle. -/
theorem no_circular_wait {s : State G A σ}
    (hs : ∀ t ∈ s.threads, Ascending rank ready t.held t.todo) {S : Finset ℕ}
    (hne : S.Nonempty) : ¬ ∀ i ∈ S, ∃ j ∈ S, WaitsFor s i j := by
  intro hall
  obtain ⟨i, hi, hmax⟩ := S.exists_max_image (height rank s) hne
  obtain ⟨j, hj, hij⟩ := hall i hi
  obtain ⟨k, -, hjk⟩ := hall j hj
  exact absurd (height_lt hs hij hjk) (not_lt.mpr (hmax j hj))

end GateProgram
