import Holt.Lib.Table
import Holt.Lib.Transition

/-!
# The hybrid latch

`HybridLatch` (`concurrency/hybrid_latch.rs`) is two words: the number of shared holders, or
`WRITER` while somebody holds the latch exclusively, and a version that every exclusive release
raises before it clears the first word.  An optimistic reader takes no lock: it loads the version
and then the counter when it starts, and the two in the other order when it validates.

Every load, exchange and store is a step of its own, and an exchange may fail for no reason; a
thread that spins starts over.  `LatchInv` is the exclusion.  For the readers, `Later` compares
two moments of a run by the number of exclusive sections that have begun and that have ended: a
section that is open between them has begun after the first and ended before the second, so the
version has moved.
-/

namespace Holt
namespace Concurrency

open List Transition

/-- `WRITER`. -/
@[irreducible] def writer : ℕ := 2 ^ 32 - 1

/-- Where a thread is, or the guard it holds. -/
inductive Holder
  | outside
  /-- `acquire_optimistic` between its two loads. -/
  | snapshotting (v : ℕ)
  /-- An optimistic guard, and what its last `validate` has returned. -/
  | optimistic (v : ℕ) (valid : Option Bool)
  /-- `validate` between its two loads. -/
  | validating (v : ℕ)
  /-- `acquire_shared` between its load and its exchange. -/
  | sharing (cur : Fin (writer - 1))
  | shared
  | exclusive
  /-- `release_exclusive` between its bump and its store. -/
  | releasing
deriving DecidableEq

inductive LatchAct
  | optimistic
  | share
  | exclude (spurious : Bool)
  | validate
  | release
  /-- The next step of a call that has begun. -/
  | go (spurious : Bool)
deriving DecidableEq

structure Latch where
  counter : ℕ
  version : ℕ
  holders : List Holder
deriving DecidableEq

/-- `HybridLatch::new`, with `n` threads outside. -/
def Latch.new (n : ℕ) : Latch := ⟨0, 0, List.replicate n .outside⟩

/-- What a thread does, and the two words after it. -/
def Holder.act (counter version : ℕ) : Holder → LatchAct → Option (Holder × ℕ × ℕ)
  | .outside, .optimistic => some (.snapshotting version, counter, version)
  | .snapshotting v, .go _ =>
    if counter ≠ writer then some (.optimistic v none, counter, version)
    else some (.outside, counter, version)
  | .optimistic v _, .validate =>
    if counter = writer then some (.optimistic v (some false), counter, version)
    else some (.validating v, counter, version)
  | .validating v, .go _ => some (.optimistic v (some (version = v)), counter, version)
  | .outside, .share =>
    if h : counter < writer - 1 then some (.sharing ⟨counter, h⟩, counter, version)
    else some (.outside, counter, version)
  | .sharing cur, .go spurious =>
    if counter = cur ∧ ¬ spurious then some (.shared, cur + 1, version)
    else some (.outside, counter, version)
  | .outside, .exclude spurious =>
    if counter = 0 ∧ ¬ spurious then some (.exclusive, writer, version)
    else some (.outside, counter, version)
  | .optimistic _ _, .release => some (.outside, counter, version)
  -- `fetch_sub` and `fetch_add` wrap around
  | .shared, .release => some (.outside, (counter + (2 ^ 32 - 1)) % 2 ^ 32, version)
  | .exclusive, .release => some (.releasing, counter, (version + 1) % 2 ^ 64)
  | .releasing, .go _ => some (.outside, 0, version)
  | _, _ => none

/-- One atomic step of the thread `a.1`. -/
def latchStep (s : Latch) (a : ℕ × LatchAct) : Option Latch := do
  let h ← s.holders[a.1]?
  let (h', counter, version) ← h.act s.counter s.version a.2
  some ⟨counter, version, s.holders.set a.1 h'⟩

/-- The step does not wrap the version around. -/
def NoWrap (s : Latch) (a : ℕ × LatchAct) : Prop :=
  s.holders[a.1]? = some .exclusive → s.version + 1 < 2 ^ 64

instance (s : Latch) (a : ℕ × LatchAct) : Decidable (NoWrap s a) :=
  inferInstanceAs (Decidable (_ → _))

/-- The number of exclusive sections that are open. -/
def Latch.sections (s : Latch) : ℕ := s.holders.count .exclusive + s.holders.count .releasing

/-! ## What a step does -/

/-- The counter is the number of shared holders, or `WRITER` for the one section that is open. -/
structure LatchInv (s : Latch) : Prop where
  one : s.sections ≤ 1
  free : s.sections = 0 → s.counter = s.holders.count .shared
  taken : s.sections = 1 → s.counter = writer ∧ s.holders.count .shared = 0
  bound : s.holders.count .shared < writer

/-- At a later moment, as many exclusive sections have begun and have ended, or more. -/
structure Later (s t : Latch) : Prop where
  version : s.version ≤ t.version
  begun : s.version + s.holders.count .exclusive ≤ t.version + t.holders.count .exclusive
  ended : s.version + t.holders.count .releasing ≤ t.version + s.holders.count .releasing

variable {s s' t u : Latch} {i : ℕ} {act : LatchAct} {h h' : Holder}

lemma latchInv_new (n : ℕ) : LatchInv (Latch.new n) := by
  constructor <;> simp [Latch.new, Latch.sections, count_replicate, writer]

/-- How the number of threads in one place changes when one of them moves. -/
lemma count_set_add (hi : s.holders[i]? = some h) (h' x : Holder) :
    (s.holders.set i h').count x + (if h = x then 1 else 0) =
      s.holders.count x + if h' = x then 1 else 0 := by
  simpa [count, Bool.toNat, Bool.cond_eq_ite] using Table.countP_set_add (p := (· == x)) hi h'

lemma act_of_step (hstep : latchStep s (i, act) = some s') :
    ∃ h h', s.holders[i]? = some h ∧ s'.holders = s.holders.set i h' ∧
      h.act s.counter s.version act = some (h', s'.counter, s'.version) := by
  simp only [latchStep, Option.bind_eq_bind, Option.bind_eq_some_iff] at hstep
  obtain ⟨h, hi, ⟨h', counter, version⟩, hact, heq⟩ := hstep
  obtain rfl := Option.some.inj heq
  exact ⟨h, h', hi, rfl, hact⟩

/-- The step lemma. -/
lemma LatchInv.step (inv : LatchInv s) (hstep : latchStep s (i, act) = some s') :
    LatchInv s' ∧ (NoWrap s (i, act) → Later s s') := by
  obtain ⟨h, h', hi, hset, hact⟩ := act_of_step hstep
  obtain ⟨hone, hfree, htaken, hbound⟩ := inv
  have hwrap : NoWrap s (i, act) → h = .exclusive → s.version + 1 < 2 ^ 64 := by
    rintro hw rfl
    exact hw hi
  have hwriter : writer = 2 ^ 32 - 1 := by rw [writer]
  have hsections : s.sections = s.holders.count .exclusive + s.holders.count .releasing := rfl
  have hsections' : s'.sections = s'.holders.count .exclusive + s'.holders.count .releasing := rfl
  have hshared := count_set_add hi h' .shared
  have hexclusive := count_set_add hi h' .exclusive
  have hreleasing := count_set_add hi h' .releasing
  rw [← hset] at hshared hexclusive hreleasing
  cases h <;> cases act <;> simp only [Holder.act, reduceCtorEq] at hact
  all_goals
    try split_ifs at hact
    all_goals
      simp only [Option.some.injEq, Prod.mk.injEq] at hact
      obtain ⟨rfl, hcounter, hversion⟩ := hact
      simp only [reduceCtorEq, if_true, if_false, forall_const, false_implies, implies_true]
        at hshared hexclusive hreleasing hwrap
      refine ⟨⟨by omega, by omega, by omega, by omega⟩, fun hw => ?_⟩
      try have := hwrap hw
      exact ⟨by omega, by omega, by omega⟩

/-! ## Optimistic reads -/

lemma Later.trans (h₁ : Later s t) (h₂ : Later t u) : Later s u := by
  obtain ⟨hv₁, hb₁, he₁⟩ := h₁
  obtain ⟨hv₂, hb₂, he₂⟩ := h₂
  exact ⟨by omega, by omega, by omega⟩

/-- A section that is open between two moments at which none is makes the version move. -/
lemma Later.closed (h₁ : Later s t) (h₂ : Later t u) (hs : s.sections = 0) (hu : u.sections = 0)
    (hle : u.version ≤ s.version) : t.sections = 0 := by
  obtain ⟨-, -, hended⟩ := h₁
  obtain ⟨-, hbegun, -⟩ := h₂
  simp only [Latch.sections] at hs hu ⊢
  omega

lemma LatchInv.sections_eq_zero (inv : LatchInv s) (hne : s.counter ≠ writer) : s.sections = 0 := by
  have hone := inv.one
  have htaken := inv.taken
  omega

lemma LatchInv.run (inv : LatchInv s) {as : List (ℕ × LatchAct)}
    (hrun : Path latchStep NoWrap s as t) : LatchInv t ∧ Later s t :=
  hrun.invariant (I := fun t => LatchInv t ∧ Later s t)
    (fun _ _ _ h hwrap hstep => ⟨(h.1.step hstep).1, h.2.trans ((h.1.step hstep).2 hwrap)⟩)
    ⟨inv, le_rfl, le_rfl, le_rfl⟩

lemma exists_act (hstep : latchStep s (i, act) = some s') (hi' : s'.holders[i]? = some h') :
    ∃ h : Holder, h.act s.counter s.version act = some (h', s'.counter, s'.version) := by
  obtain ⟨h, h'', hi, hset, hact⟩ := act_of_step hstep
  rw [hset, getElem?_set_self (List.getElem?_eq_some_iff.mp hi).1, Option.some.injEq] at hi'
  exact ⟨h, hi' ▸ hact⟩

/-- In every run there is one exclusive section at most, and no shared holder beside it.  And if
`acquire_optimistic` returns, from the state `u`, the version that it has loaded in `s`, and
`validate` returns true for it after its loads in `w` and `x`, no section is open at any moment
`t` between `u` and `w`, as long as the version does not wrap around. -/
theorem optimistic_read_sound {n : ℕ} {as : List (ℕ × LatchAct)}
    (hrun : FreePath latchStep (Latch.new n) as s) :
    (s.sections ≤ 1 ∧ (s.sections = 1 → s.holders.count .shared = 0)) ∧
    ∀ i bs u b u₁, Path latchStep NoWrap s bs u → latchStep u (i, .go b) = some u₁ →
      u₁.holders[i]? = some (.optimistic s.version none) →
    ∀ cs t ds w w₁, Path latchStep NoWrap u cs t → Path latchStep NoWrap t ds w →
      latchStep w (i, .validate) = some w₁ → w₁.holders[i]? = some (.validating s.version) →
    ∀ es x c x₁, Path latchStep NoWrap w es x → latchStep x (i, .go c) = some x₁ →
      x₁.holders[i]? = some (.optimistic s.version (some true)) → t.sections = 0 := by
  have inv : LatchInv s :=
    hrun.invariant (fun _ _ _ inv _ hstep => (inv.step hstep).1) (latchInv_new n)
  refine ⟨⟨inv.one, fun h => (inv.taken h).2⟩, ?_⟩
  intro i bs u b u₁ hbs hreturn hu₁ cs t ds w w₁ hcs hds hfirst hw₁ es x c x₁ hes hsecond hx₁
  have hu : u.counter ≠ writer := by
    obtain ⟨h, hact⟩ := exists_act hreturn hu₁
    cases h <;> grind [Holder.act]
  have hw : w.counter ≠ writer := by
    obtain ⟨h, hact⟩ := exists_act hfirst hw₁
    cases h <;> grind [Holder.act]
  have hx : x.version = s.version := by
    obtain ⟨h, hact⟩ := exists_act hsecond hx₁
    cases h <;> grind [Holder.act]
  obtain ⟨invu, hsu⟩ := inv.run hbs
  obtain ⟨invt, hut⟩ := invu.run hcs
  obtain ⟨invw, htw⟩ := invt.run hds
  refine hut.closed htw (invu.sections_eq_zero hu) (invw.sections_eq_zero hw) ?_
  exact ((invw.run hes).2.version.trans hx.le).trans hsu.version

/-- A reader validates what it has read while another thread held the latch shared. -/
theorem optimistic_read_sound_beside_reader :
    ((exec latchStep (Latch.new 2) [(0, .optimistic), (0, .go false), (1, .share), (1, .go false),
      (1, .release), (0, .validate), (0, .go false)]).map Latch.holders) =
        some [.optimistic 0 (some true), .outside] ∧
    Latch.sections ⟨1, 0, [.optimistic 0 none, .shared]⟩ = 0 := by
  have path : ∀ {s as t}, guardedTo latchStep NoWrap (· = t) s as = true →
      Path latchStep NoWrap s as t := fun h => by
    obtain ⟨_, -, hpath, rfl⟩ := path_of_guardedTo h
    exact hpath
  refine ⟨by decide +kernel, ?_⟩
  exact (optimistic_read_sound (.nil (Latch.new 2))).2 0 [(0, .optimistic)]
    ⟨0, 0, [.snapshotting 0, .outside]⟩ false ⟨0, 0, [.optimistic 0 none, .outside]⟩
    (path (by decide +kernel)) (by decide +kernel) rfl
    [(0, .go false), (1, .share), (1, .go false)] _ [(1, .release)]
    ⟨0, 0, [.optimistic 0 none, .outside]⟩ ⟨0, 0, [.validating 0, .outside]⟩
    (path (by decide +kernel)) (path (by decide +kernel)) (by decide +kernel) rfl
    [(0, .validate)] ⟨0, 0, [.validating 0, .outside]⟩ false
    ⟨0, 0, [.optimistic 0 (some true), .outside]⟩
    (path (by decide +kernel)) (by decide +kernel) rfl

end Concurrency
end Holt
