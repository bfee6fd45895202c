import Holt.Lib.Transition
import Holt.Lib.Table

/-!
# Threads that take shared and exclusive gates

A gate admits any number of shared entrants, or one exclusive one.  An exclusive entrant first
sets the gate's write bit, which no one can set twice and which stops new shared entrants, and
then waits until the shared entrants have left.  Gates are not reentrant and do not know who
is in them.

A thread is a list of instructions: entering and leaving gates, and actions on a shared store,
whose result may put further instructions in front of the rest.  Threads are started by
requests and their instructions interleave freely.  Beside its instructions a thread carries
the gates it is in, which no gate looks at:

* `Admitted` relates the words of the gates to the threads that are in them, and
  `Admitted.stays` says that a thread that waits for a gate it has claimed itself waits forever;
* `Bracketed` says that the instructions left leave every gate the thread is in and enter none
  it is already in; a thread that is bracketed moves, or waits for a gate that another thread
  is in (`Admitted.moves_or_waits`);
* `weight` bounds the instructions left, and every instruction lowers it (`weight_lt`).
-/

namespace GateProgram

open Function List Option
open Transition (guard_eq_some)

/-- The state word of a gate. -/
structure Gate where
  writeBit : Bool
  count : ℕ
deriving DecidableEq

namespace Gate

/-- A gate nobody is in. -/
def new : Gate := ⟨false, 0⟩

/-- Shared entry; it waits while the write bit is set. -/
def enterShared (gate : Gate) : Option Gate :=
  if gate.writeBit then none else some { gate with count := gate.count + 1 }

/-- The first half of exclusive entry; it waits while the write bit is set. -/
def setWrite (gate : Gate) : Option Gate :=
  if gate.writeBit then none else some { gate with writeBit := true }

def leaveShared (gate : Gate) : Gate := { gate with count := gate.count - 1 }

/-- Exclusive exit stores zero. -/
def leaveExclusive (_ : Gate) : Gate := ⟨false, 0⟩

lemma enterShared_inv {gate gate' : Gate} (h : gate.enterShared = some gate') :
    gate.writeBit = false ∧ gate'.writeBit = false ∧ gate'.count = gate.count + 1 := by
  unfold enterShared at h
  by_cases hbit : gate.writeBit = true
  · simp [hbit] at h
  · cases (if_neg hbit).symm.trans h
    simpa using hbit

lemma setWrite_inv {gate gate' : Gate} (h : gate.setWrite = some gate') :
    gate.writeBit = false ∧ gate'.writeBit = true ∧ gate'.count = gate.count := by
  unfold setWrite at h
  by_cases hbit : gate.writeBit = true
  · simp [hbit] at h
  · cases (if_neg hbit).symm.trans h
    exact ⟨by simpa using hbit, rfl, rfl⟩

end Gate

/-- One instruction of a thread; `G` names the gates and `A` the actions on the store. -/
inductive Instr (G A : Type)
  | enterShared (g : G)
  | setWrite (g : G)
  | drain (g : G)
  | leaveShared (g : G)
  | leaveExclusive (g : G)
  | act (a : A)

/-- The gate an instruction waits to get into. -/
def Instr.enters {G A : Type} : Instr G A → Option G
  | .enterShared g | .setWrite g => some g
  | _ => none

/-- The gates a thread is in: as a shared entrant, with the write bit set but perhaps not
drained, and exclusively. -/
structure Held (G : Type) where
  shared : List G
  claimed : List G
  exclusive : List G
deriving DecidableEq

namespace Held

variable {G : Type}

/-- In no gate. -/
def none : Held G := ⟨[], [], []⟩

/-- The gates whose write bit the thread has set. -/
def owns (held : Held G) : List G := held.claimed ++ held.exclusive

/-- The gates the thread is in, in whatever way. -/
def all (held : Held G) : List G := held.shared ++ held.owns

end Held

/-- A thread: the gates it is in and the instructions it still has to run. -/
structure Thread (G A : Type) where
  held : Held G
  todo : List (Instr G A)

structure State (G A σ : Type) where
  gates : G → Gate
  store : σ
  threads : List (Thread G A)

/-- A new request, or one instruction of the thread with a given index. -/
inductive Action (R : Type)
  | call (r : R)
  | run (i : ℕ)
deriving DecidableEq

variable {G A R σ : Type} [DecidableEq G]

/-- What an instruction does to the gates, to the store and to its thread; `none` while it has
to wait. -/
def fire (act : σ → A → σ × List (Instr G A)) (gates : G → Gate) (store : σ) (held : Held G)
    (rest : List (Instr G A)) : Instr G A → Option ((G → Gate) × σ × Thread G A)
  | .enterShared g =>
    (gates g).enterShared.map fun gate =>
      (Function.update gates g gate, store, ⟨{ held with shared := g :: held.shared }, rest⟩)
  | .setWrite g =>
    (gates g).setWrite.map fun gate =>
      (Function.update gates g gate, store, ⟨{ held with claimed := g :: held.claimed }, rest⟩)
  | .drain g =>
    if (gates g).count = 0 ∧ g ∈ held.claimed then
      some (gates, store,
        ⟨{ held with claimed := held.claimed.erase g, exclusive := g :: held.exclusive }, rest⟩)
    else none
  | .leaveShared g =>
    if g ∈ held.shared then
      some (Function.update gates g (gates g).leaveShared, store,
        ⟨{ held with shared := held.shared.erase g }, rest⟩)
    else none
  | .leaveExclusive g =>
    if g ∈ held.exclusive then
      some (Function.update gates g (gates g).leaveExclusive, store,
        ⟨{ held with exclusive := held.exclusive.erase g }, rest⟩)
    else none
  | .act a => some (gates, (act store a).1, ⟨held, (act store a).2 ++ rest⟩)

/-- The next instruction of a thread. -/
def Thread.next (act : σ → A → σ × List (Instr G A)) (gates : G → Gate) (store : σ)
    (t : Thread G A) : Option ((G → Gate) × σ × Thread G A) :=
  match t.todo with
  | [] => none
  | instr :: rest => fire act gates store t.held rest instr

/-- One step of the system. -/
def step (act : σ → A → σ × List (Instr G A)) (program : R → List (Instr G A))
    (s : State G A σ) : Action R → Option (State G A σ)
  | .call r => some { s with threads := s.threads ++ [⟨Held.none, program r⟩] }
  | .run i =>
    match s.threads[i]? with
    | none => none
    | some t =>
      (t.next act s.gates s.store).map fun r =>
        { gates := r.1, store := r.2.1, threads := s.threads.set i r.2.2 }

/-- All gates open and no thread. -/
def State.initial (store : σ) : State G A σ := ⟨fun _ => Gate.new, store, []⟩

variable {act : σ → A → σ × List (Instr G A)} {program : R → List (Instr G A)}
  {s s' : State G A σ}

variable {i : ℕ}

/-- A step of thread `i` fires the first of its instructions. -/
lemma step_run_inv (h : step act program s (.run i) = some s') :
    ∃ held instr rest r, s.threads[i]? = some ⟨held, instr :: rest⟩ ∧
      fire act s.gates s.store held rest instr = some r ∧
      s' = { gates := r.1, store := r.2.1, threads := s.threads.set i r.2.2 } := by
  unfold step at h
  cases ht : s.threads[i]? with
  | none => simp [ht] at h
  | some t =>
    simp only [ht, map_eq_some_iff] at h
    obtain ⟨r, hr, rfl⟩ := h
    obtain ⟨held, todo⟩ := t
    cases todo with
    | nil => simp [Thread.next] at hr
    | cons instr rest => exact ⟨held, instr, rest, r, rfl, hr, rfl⟩

variable {held : Held G} {instr : Instr G A} {rest : List (Instr G A)}

/-- Firing the first instruction of thread `i` is a step. -/
lemma step_run_of_fire (ht : s.threads[i]? = some ⟨held, instr :: rest⟩) :
    step act program s (.run i) = (fire act s.gates s.store held rest instr).map fun r =>
      { gates := r.1, store := r.2.1, threads := s.threads.set i r.2.2 } := by
  unfold step
  simp only [ht]
  rfl

/-- A property of threads that every started program has and every instruction keeps holds of
every thread of every run. -/
theorem forall_threads_of_run {P : Thread G A → Prop} {guard : State G A σ → Action R → Prop}
    (hcall : ∀ r, P ⟨Held.none, program r⟩)
    (hfire : ∀ (s : State G A σ) (i : ℕ) held instr rest r, guard s (.run i) →
      s.threads[i]? = some ⟨held, instr :: rest⟩ → P ⟨held, instr :: rest⟩ →
      fire act s.gates s.store held rest instr = some r → P r.2.2)
    {actions : List (Action R)}
    (hrun : Transition.Path (step act program) guard s actions s')
    (hs : ∀ t ∈ s.threads, P t) : ∀ t ∈ s'.threads, P t := by
  refine @Transition.Path.invariant _ _ _ _ (fun u => ∀ t ∈ u.threads, P t) ?_ _ _ _ hrun hs
  intro u a u' hu hguard hstep t ht
  obtain ⟨k, hk⟩ := mem_iff_getElem?.mp ht
  cases a with
  | call r =>
    cases hstep
    rcases Table.getElem?_append_cases hk with hk | ⟨rfl, rfl⟩
    · exact hu t (mem_of_getElem? hk)
    · exact hcall r
  | run i =>
    obtain ⟨held, instr, rest, r, hx, hr, rfl⟩ := step_run_inv hstep
    rcases Table.getElem?_set_cases hk with ⟨rfl, rfl⟩ | ⟨hne, hk⟩
    · exact hfire u k held instr rest r hguard hx (hu _ (mem_of_getElem? hx)) hr
    · exact hu t (mem_of_getElem? hk)

/-! ## Who is in a gate -/

/-- The words of the gates tell who is in them: the write bit is set exactly while one thread
owns the gate, and the count is the number of shared entries, zero once the gate has drained. -/
structure AdmittedBy (s : State G A σ) (owner : G → Option ℕ) : Prop where
  writeBit : ∀ g, (s.gates g).writeBit = (owner g).isSome
  inRange : ∀ g i, owner g = some i → i < s.threads.length
  once : ∀ i t, s.threads[i]? = some t →
    ∀ g, t.held.owns.count g = if owner g = some i then 1 else 0
  count : ∀ g, (s.gates g).count = (s.threads.map (fun t => t.held.shared.count g)).sum
  drained : ∀ t ∈ s.threads, ∀ g ∈ t.held.exclusive, (s.gates g).count = 0

/-- Every gate that is closed has one owner. -/
def Admitted (s : State G A σ) : Prop := ∃ owner, AdmittedBy s owner

lemma admitted_initial (store : σ) : Admitted (State.initial store : State G A σ) :=
  ⟨fun _ => none, fun _ => rfl, fun _ _ h => by simp at h,
    fun i t ht => by simp [State.initial] at ht, fun _ => rfl,
    fun t ht => by simp [State.initial] at ht⟩

variable {owner : G → Option ℕ} {t : Thread G A} {g : G}

lemma AdmittedBy.owner_of_mem (hs : AdmittedBy s owner) (ht : s.threads[i]? = some t)
    (hg : g ∈ t.held.owns) : owner g = some i := by
  by_contra hne
  have hzero := hs.once i t ht g
  rw [if_neg hne] at hzero
  exact count_eq_zero.mp hzero hg

variable {gates : G → Gate}

lemma writeBit_update (hbit : ∀ g, (gates g).writeBit = (owner g).isSome) (g : G) {gate : Gate}
    {o : Option ℕ} (hgate : gate.writeBit = o.isSome) (g' : G) :
    (update gates g gate g').writeBit = (update owner g o g').isSome := by
  by_cases hg : g' = g
  · subst hg
    simpa using hgate
  · rw [update_of_ne hg, update_of_ne hg]
    exact hbit g'

variable {r : (G → Gate) × σ × Thread G A}

/-- An instruction moves the ownership of at most one gate, from or to its own thread. -/
lemma AdmittedBy.fire_owner (hs : AdmittedBy s owner)
    (ht : s.threads[i]? = some ⟨held, instr :: rest⟩)
    (h : fire act s.gates s.store held rest instr = some r) :
    ∃ owner' : G → Option ℕ, (∀ g, (r.1 g).writeBit = (owner' g).isSome) ∧
      (∀ g, r.2.2.held.owns.count g = if owner' g = some i then 1 else 0) ∧
      ∀ g, owner' g ≠ owner g →
        (owner g = none ∨ owner g = some i) ∧ (owner' g = none ∨ owner' g = some i) := by
  have hown := hs.once i _ ht
  cases instr with
  | enterShared g =>
    obtain ⟨gate, hgate, rfl⟩ := map_eq_some_iff.mp h
    obtain ⟨hold, hnew, -⟩ := Gate.enterShared_inv hgate
    have hsame : gate.writeBit = (owner g).isSome := by rw [hnew, ← hs.writeBit, hold]
    refine ⟨owner, fun g' => ?_, hown, fun g' hne => absurd rfl hne⟩
    simpa using writeBit_update hs.writeBit g hsame g'
  | setWrite g =>
    obtain ⟨gate, hgate, rfl⟩ := map_eq_some_iff.mp h
    obtain ⟨hold, hnew, -⟩ := Gate.setWrite_inv hgate
    have hfree : owner g = none := by simpa [hold] using (hs.writeBit g).symm
    refine ⟨update owner g (some i), writeBit_update hs.writeBit g hnew, fun g' => ?_,
      fun g' hne => ?_⟩
    · have hcount := hown g'
      simp only [Held.owns, cons_append, count_cons] at hcount ⊢
      by_cases hg : g' = g
      · subst hg
        simp [hcount, hfree]
      · rw [hcount, update_of_ne hg]
        simp [Ne.symm hg]
    · by_cases hg : g' = g
      · subst hg
        exact ⟨.inl hfree, .inr (update_self ..)⟩
      · exact absurd (update_of_ne hg ..) hne
  | drain g =>
    obtain ⟨⟨-, hmem⟩, rfl⟩ := guard_eq_some.mp h
    refine ⟨owner, hs.writeBit, fun g' => ?_, fun g' hne => absurd rfl hne⟩
    have hperm : (held.claimed.erase g ++ g :: held.exclusive).Perm
        (held.claimed ++ held.exclusive) :=
      perm_middle.trans ((perm_cons_erase hmem).symm.append_right _)
    exact (hperm.count_eq g').trans (hown g')
  | leaveShared g =>
    obtain ⟨-, rfl⟩ := guard_eq_some.mp h
    refine ⟨owner, fun g' => ?_, hown, fun g' hne => absurd rfl hne⟩
    have hsame : (s.gates g).leaveShared.writeBit = (owner g).isSome := hs.writeBit g
    simpa using writeBit_update hs.writeBit g hsame g'
  | leaveExclusive g =>
    obtain ⟨hmem, rfl⟩ := guard_eq_some.mp h
    have howner : owner g = some i := hs.owner_of_mem ht (mem_append_right _ hmem)
    refine ⟨update owner g none, writeBit_update hs.writeBit g rfl, fun g' => ?_,
      fun g' hne => ?_⟩
    · have hcount := hown g'
      simp only [Held.owns, count_append] at hcount ⊢
      by_cases hg : g' = g
      · subst hg
        rw [if_pos howner] at hcount
        have hpos := count_pos_iff.mpr hmem
        rw [count_erase_self, update_self, if_neg nofun]
        omega
      · rw [count_erase_of_ne hg, hcount, update_of_ne hg]
    · by_cases hg : g' = g
      · subst hg
        exact ⟨.inr howner, .inl (update_self ..)⟩
      · exact absurd (update_of_ne hg ..) hne
  | act a =>
    cases h
    exact ⟨owner, hs.writeBit, hown, fun g' hne => absurd rfl hne⟩

/-- An instruction changes the count of a gate with the thread's own shared entries. -/
lemma AdmittedBy.fire_count (hs : AdmittedBy s owner)
    (ht : s.threads[i]? = some ⟨held, instr :: rest⟩)
    (h : fire act s.gates s.store held rest instr = some r) (g : G) :
    (r.1 g).count + held.shared.count g = (s.gates g).count + r.2.2.held.shared.count g := by
  cases instr with
  | enterShared g' =>
    obtain ⟨gate, hgate, rfl⟩ := map_eq_some_iff.mp h
    obtain ⟨-, -, hcount⟩ := Gate.enterShared_inv hgate
    by_cases hg : g = g'
    · subst hg
      simp only [update_self, count_cons_self, hcount]
      omega
    · simp only [update_of_ne hg, count_cons_of_ne (Ne.symm hg)]
  | setWrite g' =>
    obtain ⟨gate, hgate, rfl⟩ := map_eq_some_iff.mp h
    obtain ⟨-, -, hcount⟩ := Gate.setWrite_inv hgate
    by_cases hg : g = g'
    · subst hg
      simp only [update_self, hcount]
    · simp only [update_of_ne hg]
  | drain g' =>
    obtain ⟨-, rfl⟩ := guard_eq_some.mp h
    rfl
  | leaveShared g' =>
    obtain ⟨hmem, rfl⟩ := guard_eq_some.mp h
    by_cases hg : g = g'
    · subst hg
      have hpos := count_pos_iff.mpr hmem
      have hle : held.shared.count g ≤ (s.gates g).count := by
        rw [hs.count g]
        exact single_le_sum (fun _ _ => Nat.zero_le _) _
          (List.mem_map.mpr ⟨_, mem_of_getElem? ht, rfl⟩)
      simp only [update_self, Gate.leaveShared, count_erase_self]
      omega
    · simp only [update_of_ne hg, count_erase_of_ne hg]
  | leaveExclusive g' =>
    obtain ⟨hmem, rfl⟩ := guard_eq_some.mp h
    by_cases hg : g = g'
    · subst hg
      have hzero := hs.drained _ (mem_of_getElem? ht) g hmem
      simp only [update_self, Gate.leaveExclusive, hzero]
    · simp only [update_of_ne hg]
  | act a =>
    cases h
    rfl

variable {store : σ}

/-- A gate that has drained is not entered before its owner leaves it. -/
lemma fire_drained (h : fire act gates store held rest instr = some r)
    (hg : (gates g).writeBit = true ∧ (gates g).count = 0) : (r.1 g).count = 0 := by
  cases instr with
  | enterShared g' =>
    obtain ⟨gate, hgate, rfl⟩ := map_eq_some_iff.mp h
    obtain ⟨hbit, -, -⟩ := Gate.enterShared_inv hgate
    have hne : g ≠ g' := by
      rintro rfl
      exact Bool.noConfusion (hbit.symm.trans hg.1)
    simpa only [update_of_ne hne] using hg.2
  | setWrite g' =>
    obtain ⟨gate, hgate, rfl⟩ := map_eq_some_iff.mp h
    obtain ⟨hbit, -, -⟩ := Gate.setWrite_inv hgate
    have hne : g ≠ g' := by
      rintro rfl
      exact Bool.noConfusion (hbit.symm.trans hg.1)
    simpa only [update_of_ne hne] using hg.2
  | drain g' =>
    obtain ⟨-, rfl⟩ := guard_eq_some.mp h
    exact hg.2
  | leaveShared g' =>
    obtain ⟨-, rfl⟩ := guard_eq_some.mp h
    by_cases hne : g = g'
    · subst hne
      simp [Gate.leaveShared, hg.2]
    · simpa only [update_of_ne hne] using hg.2
  | leaveExclusive g' =>
    obtain ⟨-, rfl⟩ := guard_eq_some.mp h
    by_cases hne : g = g'
    · subst hne
      simp [Gate.leaveExclusive]
    · simpa only [update_of_ne hne] using hg.2
  | act a =>
    cases h
    exact hg.2

/-- A thread gets a gate exclusively only when the gate has drained. -/
lemma fire_exclusive (h : fire act gates store held rest instr = some r)
    (hg : g ∈ r.2.2.held.exclusive) : g ∈ held.exclusive ∨ (r.1 g).count = 0 := by
  cases instr with
  | enterShared g' | setWrite g' =>
    obtain ⟨gate, -, rfl⟩ := map_eq_some_iff.mp h
    exact .inl hg
  | drain g' =>
    obtain ⟨⟨hzero, -⟩, rfl⟩ := guard_eq_some.mp h
    rcases mem_cons.mp hg with rfl | hg
    · exact .inr hzero
    · exact .inl hg
  | leaveShared g' =>
    obtain ⟨-, rfl⟩ := guard_eq_some.mp h
    exact .inl hg
  | leaveExclusive g' =>
    obtain ⟨-, rfl⟩ := guard_eq_some.mp h
    exact .inl (mem_of_mem_erase hg)
  | act a =>
    cases h
    exact .inl hg

theorem Admitted.step {a : Action R} (hs : Admitted s)
    (h : GateProgram.step act program s a = some s') : Admitted s' := by
  obtain ⟨owner, hs⟩ := hs
  cases a with
  | call r =>
    cases h
    refine ⟨owner, hs.writeBit, fun g i hi => ?_, fun i t ht g => ?_, fun g => ?_, fun t ht => ?_⟩
    · simpa using (hs.inRange g i hi).le.trans_lt (Nat.lt_succ_self _)
    · rcases Table.getElem?_append_cases ht with ht | ⟨rfl, rfl⟩
      · exact hs.once i t ht g
      · -- no gate is owned by an index that was not in use
        rw [if_neg fun howner => absurd (hs.inRange g _ howner) (lt_irrefl _)]
        rfl
    · simpa [Held.none] using hs.count g
    · rcases Table.mem_concat ht with ht | rfl
      · exact hs.drained t ht
      · simp [Held.none]
  | run i =>
    obtain ⟨held, instr, rest, r, ht, hfire, rfl⟩ := step_run_inv h
    obtain ⟨owner', hbit', hown', hmoved⟩ := hs.fire_owner ht hfire
    have hi : i < s.threads.length := (List.getElem?_eq_some_iff.mp ht).1
    refine ⟨owner', hbit', fun g k hk => ?_, fun k u hu g => ?_, fun g => ?_, fun u hu g hg => ?_⟩
    · rw [length_set]
      by_cases hg : owner' g = owner g
      · exact hs.inRange g k (hg ▸ hk)
      · rcases (hmoved g hg).2 with hnew | hnew
        · simp [hnew] at hk
        · cases hnew.symm.trans hk
          exact hi
    · rcases Table.getElem?_set_cases hu with ⟨rfl, rfl⟩ | ⟨hne, hu⟩
      · exact hown' g
      · rw [hs.once k u hu g]
        by_cases hg : owner' g = owner g
        · rw [hg]
        · have hk : ∀ o : Option ℕ, o = none ∨ o = some i → o ≠ some k := by
            rintro o (rfl | rfl) <;> simp [Ne.symm hne]
          rw [if_neg (hk _ (hmoved g hg).1), if_neg (hk _ (hmoved g hg).2)]
    · have hcount := hs.fire_count ht hfire g
      have hsum := Table.sum_map_set (f := fun t : Thread G A => t.held.shared.count g) ht r.2.2
      have hold := hs.count g
      simp only at hsum ⊢
      omega
    · obtain ⟨k, hk⟩ := mem_iff_getElem?.mp hu
      -- whoever has the gate exclusively had it before, or has just drained it
      have hclosed : ∀ x ∈ s.threads, g ∈ x.held.exclusive → (r.1 g).count = 0 := by
        intro x hx hgx
        obtain ⟨j, hj⟩ := mem_iff_getElem?.mp hx
        refine fire_drained hfire ⟨?_, hs.drained x hx g hgx⟩
        rw [hs.writeBit, hs.owner_of_mem hj (mem_append_right _ hgx)]
        rfl
      rcases Table.getElem?_set_cases hk with ⟨-, rfl⟩ | ⟨-, hk⟩
      · rcases fire_exclusive hfire hg with hg | hzero
        · exact hclosed _ (mem_of_getElem? ht) hg
        · exact hzero
      · exact hclosed u (mem_of_getElem? hk) hg

/-- No other thread is in a gate that a thread has exclusively. -/
lemma Admitted.exclusive_apart (hs : Admitted s) {j : ℕ} {u : Thread G A}
    (ht : s.threads[i]? = some t) (hu : s.threads[j]? = some u) (hne : i ≠ j)
    (hg : g ∈ t.held.exclusive) : g ∉ u.held.all := by
  obtain ⟨owner, hs⟩ := hs
  intro hmem
  rcases mem_append.mp hmem with hshared | howns
  · have hzero := hs.drained t (mem_of_getElem? ht) g hg
    rw [hs.count g] at hzero
    have hu' := List.mem_map_of_mem (f := fun t => t.held.shared.count g)
      (mem_of_getElem? hu)
    exact count_eq_zero.mp (sum_eq_zero_iff.mp hzero _ hu') hshared
  · have howner := hs.owner_of_mem ht (mem_append_right _ hg)
    exact hne (Option.some.inj (howner.symm.trans (hs.owner_of_mem hu howns)))

/-! ## Waiting for oneself -/

/-- A thread whose next instruction enters a gate whose write bit it has set itself. -/
def Thread.WaitsForItself (t : Thread G A) : Prop :=
  ∃ g instr rest, t.todo = instr :: rest ∧ instr.enters = some g ∧ g ∈ t.held.owns

lemma fire_enters_eq_none (henters : instr.enters = some g) (hbit : (gates g).writeBit = true) :
    fire act gates store held rest instr = none := by
  cases instr with
  | enterShared g' =>
    cases henters
    simp [fire, Gate.enterShared, hbit]
  | setWrite g' =>
    cases henters
    simp [fire, Gate.setWrite, hbit]
  | drain | leaveShared | leaveExclusive | act => simp [Instr.enters] at henters

lemma Admitted.stuck (hs : Admitted s) (ht : s.threads[i]? = some t) (hwaits : t.WaitsForItself) :
    GateProgram.step act program s (.run i) = none := by
  obtain ⟨owner, hs⟩ := hs
  obtain ⟨held, todo⟩ := t
  obtain ⟨g, instr, rest, rfl, henters, hg⟩ := hwaits
  have hbit : (s.gates g).writeBit = true := by
    rw [hs.writeBit, hs.owner_of_mem ht hg]
    rfl
  rw [step_run_of_fire ht, fire_enters_eq_none henters hbit]
  rfl

/-- A thread that waits for a gate it has claimed itself stays where it is, whatever the other
threads do. -/
theorem Admitted.stays {actions : List (Action R)} (hs : Admitted s) (ht : s.threads[i]? = some t)
    (hwaits : t.WaitsForItself)
    (hrun : Transition.FreePath (GateProgram.step act program) s actions s') :
    s'.threads[i]? = some t := by
  have hstep : ∀ (u : State G A σ) (a : Action R) (u' : State G A σ),
      Admitted u ∧ u.threads[i]? = some t → True → GateProgram.step act program u a = some u' →
      Admitted u' ∧ u'.threads[i]? = some t := by
    rintro u a u' ⟨hadmitted, hthread⟩ - hstep
    refine ⟨hadmitted.step hstep, ?_⟩
    cases a with
    | call r =>
      cases hstep
      exact (getElem?_append_left (List.getElem?_eq_some_iff.mp hthread).1).trans hthread
    | run k =>
      have hne : k ≠ i := by
        rintro rfl
        rw [hadmitted.stuck hthread hwaits] at hstep
        cases hstep
      obtain ⟨-, -, -, r, -, -, rfl⟩ := step_run_inv hstep
      exact (getElem?_set_ne hne).trans hthread
  exact (hrun.invariant hstep ⟨hs, ht⟩).2

/-! ## Programs that leave what they enter -/

/-- The instructions leave every gate, those of `held` included, and enter none they are in;
an action comes where it is `ready`. -/
def Bracketed (ready : A → Held G → Prop) : Held G → List (Instr G A) → Prop
  | held, [] => held = Held.none
  | held, .enterShared g :: rest =>
    g ∉ held.all ∧ Bracketed ready { held with shared := g :: held.shared } rest
  | held, .setWrite g :: rest =>
    g ∉ held.all ∧ Bracketed ready { held with claimed := g :: held.claimed } rest
  | held, .drain g :: rest =>
    (g ∈ held.claimed ∧ g ∉ held.shared) ∧ Bracketed ready
      { held with claimed := held.claimed.erase g, exclusive := g :: held.exclusive } rest
  | held, .leaveShared g :: rest =>
    g ∈ held.shared ∧ Bracketed ready { held with shared := held.shared.erase g } rest
  | held, .leaveExclusive g :: rest =>
    g ∈ held.exclusive ∧ Bracketed ready { held with exclusive := held.exclusive.erase g } rest
  | held, .act a :: rest => ready a held ∧ Bracketed ready held rest

variable {ready : A → Held G → Prop}

/-- An instruction of a bracketed thread leaves it bracketed, if its action does. -/
lemma Bracketed.fire (hact : ∀ a, instr = .act a → ready a held → Bracketed ready held rest →
      Bracketed ready held ((act store a).2 ++ rest)) (ht : Bracketed ready held (instr :: rest))
    (h : GateProgram.fire act gates store held rest instr = some r) :
    Bracketed ready r.2.2.held r.2.2.todo := by
  cases instr with
  | enterShared g | setWrite g =>
    obtain ⟨gate, -, rfl⟩ := map_eq_some_iff.mp h
    exact ht.2
  | drain g | leaveShared g | leaveExclusive g =>
    obtain ⟨-, rfl⟩ := guard_eq_some.mp h
    exact ht.2
  | act a =>
    cases h
    exact hact a rfl ht.1 ht.2

lemma Bracketed.enters (ht : Bracketed ready held (instr :: rest)) (hg : instr.enters = some g) :
    g ∉ held.all := by
  cases instr with
  | enterShared g' | setWrite g' =>
    cases hg
    exact ht.1
  | drain | leaveShared | leaveExclusive | act => simp [Instr.enters] at hg

/-- What can hold up a bracketed thread: a write bit, or shared entrants of a gate it has
claimed. -/
lemma Bracketed.fires_or_waits (ht : Bracketed ready held (instr :: rest)) (gates : G → Gate)
    (store : σ) : (∃ r, GateProgram.fire act gates store held rest instr = some r) ∨
      (∃ g, instr.enters = some g ∧ (gates g).writeBit = true) ∨
      ∃ g, instr = .drain g ∧ (gates g).count ≠ 0 := by
  rw [← isSome_iff_exists]
  cases instr with
  | enterShared g =>
    by_cases hbit : (gates g).writeBit = true
    · exact .inr (.inl ⟨g, rfl, hbit⟩)
    · simp [GateProgram.fire, Gate.enterShared, hbit]
  | setWrite g =>
    by_cases hbit : (gates g).writeBit = true
    · exact .inr (.inl ⟨g, rfl, hbit⟩)
    · simp [GateProgram.fire, Gate.setWrite, hbit]
  | drain g =>
    by_cases hcount : (gates g).count = 0
    · simp [GateProgram.fire, hcount, ht.1]
    · exact .inr (.inr ⟨g, rfl, hcount⟩)
  | leaveShared g | leaveExclusive g => simp [GateProgram.fire, ht.1]
  | act a => simp [GateProgram.fire]

/-- A bracketed thread can move, or it waits for a gate that another thread is in. -/
theorem Admitted.moves_or_waits (hs : Admitted s) (ht : s.threads[i]? = some ⟨held, instr :: rest⟩)
    (hbr : Bracketed ready held (instr :: rest)) :
    (∃ s', GateProgram.step act program s (.run i) = some s') ∨
      ∃ g k u, (instr.enters = some g ∨ instr = .drain g) ∧ k ≠ i ∧
        s.threads[k]? = some u ∧ g ∈ u.held.all := by
  obtain ⟨owner, hs⟩ := hs
  rcases @Bracketed.fires_or_waits _ _ _ _ act _ _ _ _ hbr s.gates s.store with
    ⟨r, hr⟩ | ⟨g, hg, hbit⟩ | ⟨g, rfl, hcount⟩
  · left
    rw [step_run_of_fire ht, hr]
    exact ⟨_, rfl⟩
  · -- the write bit was set by another thread, since this one is not in the gate
    right
    rw [hs.writeBit, isSome_iff_exists] at hbit
    obtain ⟨k, hk⟩ := hbit
    obtain ⟨u, hu⟩ : ∃ u, s.threads[k]? = some u :=
      ⟨_, getElem?_eq_getElem (hs.inRange g k hk)⟩
    have hcount := hs.once k u hu g
    rw [if_pos hk] at hcount
    have hmem : g ∈ u.held.owns := count_pos_iff.mp (by omega)
    refine ⟨g, k, u, .inl hg, ?_, hu, mem_append_right _ hmem⟩
    rintro rfl
    cases hu.symm.trans ht
    exact hbr.enters hg (mem_append_right _ hmem)
  · -- the gate has a shared entrant, which is not this thread
    right
    have hsum := hs.count g
    obtain ⟨n, hn, hpos⟩ : ∃ n ∈ s.threads.map (fun t => t.held.shared.count g), n ≠ 0 := by
      by_contra hall
      push Not at hall
      exact hcount (hsum.trans (sum_eq_zero hall))
    obtain ⟨u, hu, rfl⟩ := List.mem_map.mp hn
    obtain ⟨k, hk⟩ := mem_iff_getElem?.mp hu
    have hmem : g ∈ u.held.shared := count_pos_iff.mp (Nat.pos_of_ne_zero hpos)
    refine ⟨g, k, u, .inr rfl, ?_, hk, mem_append_left _ hmem⟩
    rintro rfl
    cases hk.symm.trans ht
    exact hbr.1.2 hmem

/-! ## How many instructions are left -/

/-- A bound on the instructions a list can still run, when an action is worth `fuel`. -/
def weight (fuel : A → ℕ) : List (Instr G A) → ℕ
  | [] => 0
  | .act a :: rest => fuel a + 1 + weight fuel rest
  | _ :: rest => 1 + weight fuel rest

omit [DecidableEq G] in
lemma weight_append (fuel : A → ℕ) (l l' : List (Instr G A)) :
    weight fuel (l ++ l') = weight fuel l + weight fuel l' := by
  induction l with
  | nil => simp [weight]
  | cons instr l ih =>
    cases instr <;> simp only [cons_append, weight, ih] <;> omega

lemma weight_lt {fuel : A → ℕ} (hfuel : ∀ store a, weight fuel (act store a).2 ≤ fuel a)
    (h : fire act gates store held rest instr = some r) :
    weight fuel r.2.2.todo < weight fuel (instr :: rest) := by
  cases instr with
  | enterShared g | setWrite g =>
    obtain ⟨gate, -, rfl⟩ := map_eq_some_iff.mp h
    simp [weight]
  | drain g | leaveShared g | leaveExclusive g =>
    obtain ⟨-, rfl⟩ := guard_eq_some.mp h
    simp [weight]
  | act a =>
    cases h
    have := hfuel store a
    simp only [weight, weight_append]
    omega

end GateProgram
