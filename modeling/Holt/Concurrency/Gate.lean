import Holt.Lib.Table
import Holt.Lib.Transition
import Mathlib.Data.Nat.Bitwise

/-!
# The admission gate

`Gate` (`concurrency/gate.rs`) is one word: the number of shared holders, and in its top bit that
somebody has claimed the gate.  Shared entry counts itself in with a `compare_exchange_weak`.
Exclusive entry, which a batch uses too, first sets the bit and then waits until the count is
zero; it leaves by storing zero.

Every load, exchange and store is a step of its own, and an exchange may fail for no reason.  The
waits between two attempts do nothing and are left out.  `GateInv` is the argument: the word is
the number of shared holders plus the bit of the one claimant, and only a claimant that has seen
the count at zero holds the gate exclusively.
-/

namespace Holt
namespace Concurrency

open List Transition

/-- `WRITE_BIT`. -/
def writeBit : ℕ := 2 ^ 63

/-- `COUNT_MASK`. -/
def countMask : ℕ := writeBit - 1

/-- `enter_shared`; or `enter_exclusive`, by itself or in `enter_batch`. -/
inductive Entry
  | shared
  | exclusive (batch : Bool)
deriving DecidableEq

/-- Where a thread is in its entry, or the guard it holds. -/
inductive Caller
  | outside
  | entering (entry : Entry)
  | loaded (entry : Entry) (cur : ℕ)
  /-- The bit is set; the loop that waits for the count to drain. -/
  | draining (batch : Bool)
  | shared
  | exclusive (batch : Bool)
deriving DecidableEq

structure Gate where
  state : ℕ
  callers : List Caller

/-- `Gate::new`, with `n` threads outside. -/
def Gate.new (n : ℕ) : Gate := ⟨0, List.replicate n .outside⟩

def Gate.move (s : Gate) (i : ℕ) (caller : Caller) : Gate :=
  { s with callers := s.callers.set i caller }

/-- `fetch_sub(1)`, which wraps around. -/
def fetchSubOne (state : ℕ) : ℕ := (state + (2 ^ 64 - 1)) % 2 ^ 64

/-- Whether an entry tries to exchange the word it has loaded. -/
def Entry.tries : Entry → ℕ → Bool
  | .shared, cur => cur &&& writeBit = 0 ∧ cur &&& countMask ≠ countMask
  | .exclusive _, cur => cur &&& writeBit = 0

/-- The word an entry exchanges for the one it has loaded, and where it then is. -/
def Entry.succeed : Entry → ℕ → ℕ × Caller
  | .shared, cur => (cur + 1, .shared)
  | .exclusive batch, cur => (cur ||| writeBit, .draining batch)

inductive GateAction
  | enter (i : ℕ) (entry : Entry)
  | load (i : ℕ)
  | exchange (i : ℕ) (spurious : Bool)
  | drain (i : ℕ)
  | leave (i : ℕ)
deriving DecidableEq

/-- One atomic step of the thread `i`. -/
def gateStep (s : Gate) : GateAction → Option Gate
  | .enter i entry =>
    match s.callers[i]? with
    | some .outside => some (s.move i (.entering entry))
    | _ => none
  | .load i =>
    match s.callers[i]? with
    | some (.entering entry) => some (s.move i (.loaded entry s.state))
    | _ => none
  | .exchange i spurious =>
    match s.callers[i]? with
    | some (.loaded entry cur) =>
      if entry.tries cur ∧ s.state = cur ∧ ¬ spurious then
        some ⟨(entry.succeed cur).1, s.callers.set i (entry.succeed cur).2⟩
      else some (s.move i (.entering entry))
    | _ => none
  | .drain i =>
    match s.callers[i]? with
    | some (.draining batch) =>
      if s.state &&& countMask = 0 then some (s.move i (.exclusive batch)) else some s
    | _ => none
  | .leave i =>
    match s.callers[i]? with
    | some .shared => some ⟨fetchSubOne s.state, s.callers.set i .outside⟩
    | some (.exclusive _) => some ⟨0, s.callers.set i .outside⟩
    | _ => none

/-! ## The word -/

lemma and_writeBit {c b : ℕ} (hc : c < writeBit) (hb : b ≤ 1) :
    (c + b * writeBit) &&& writeBit = b * writeBit := by
  have hbit := Nat.testBit_lt_two_pow hc
  rw [writeBit, Nat.and_two_pow]
  interval_cases b
  · simp [hbit]
  · rw [one_mul, Nat.add_comm, Nat.testBit_two_pow_add_eq, hbit]
    rfl

lemma and_countMask {c : ℕ} (hc : c < writeBit) (b : ℕ) :
    (c + b * writeBit) &&& countMask = c := by
  rw [countMask, writeBit, Nat.and_two_pow_sub_one_eq_mod, Nat.add_mul_mod_self_right]
  exact Nat.mod_eq_of_lt hc

lemma or_writeBit {c : ℕ} (hc : c < writeBit) : c ||| writeBit = c + writeBit := by
  have h := Nat.two_pow_add_eq_or_of_lt hc 1
  rw [mul_one, Nat.lor_comm] at h
  rw [writeBit, ← h, Nat.add_comm]

/-! ## The invariant -/

def Caller.shares : Caller → Bool
  | .shared => true
  | _ => false

/-- The thread has set the bit. -/
def Caller.claims : Caller → Bool
  | .draining _ | .exclusive _ => true
  | _ => false

def Gate.count (s : Gate) : ℕ := s.callers.countP Caller.shares

def Gate.claimed (s : Gate) : ℕ := s.callers.countP Caller.claims

structure GateInv (s : Gate) : Prop where
  word : s.state = s.count + s.claimed * writeBit
  count : s.count < writeBit
  one : s.claimed ≤ 1
  drained : ∀ batch, .exclusive batch ∈ s.callers → s.count = 0

variable {s s' : Gate} {i j : ℕ} {c c' : Caller}

lemma gateInv_new (n : ℕ) : GateInv (Gate.new n) := by
  refine ⟨?_, ?_, ?_, ?_⟩ <;>
    simp [Gate.new, Gate.count, Gate.claimed, countP_replicate, Caller.shares, Caller.claims,
      writeBit]

/-- One thread moves on and there are then `n` shared holders and `k` claimants. -/
lemma GateInv.set {state n k : ℕ} (hi : s.callers[i]? = some c)
    (hcount : s.count + c'.shares.toNat = n + c.shares.toNat)
    (hclaimed : s.claimed + c'.claims.toNat = k + c.claims.toNat)
    (hword : state = n + k * writeBit) (hlt : n < writeBit) (hone : k ≤ 1)
    (hdrained : ∀ batch, .exclusive batch ∈ s.callers.set i c' → n = 0) :
    GateInv ⟨state, s.callers.set i c'⟩ := by
  obtain rfl : (Gate.mk state (s.callers.set i c')).count = n := by
    have := Table.countP_set_add (p := Caller.shares) hi c'
    simp only [Gate.count] at hcount ⊢
    omega
  obtain rfl : (Gate.mk state (s.callers.set i c')).claimed = k := by
    have := Table.countP_set_add (p := Caller.claims) hi c'
    simp only [Gate.claimed] at hclaimed ⊢
    omega
  exact ⟨hword, hlt, hone, hdrained⟩

/-- A step that moves nobody in or out and leaves the word. -/
lemma GateInv.move (inv : GateInv s) (hi : s.callers[i]? = some c) (hshares : c'.shares = c.shares)
    (hclaims : c'.claims = c.claims) (hdrained : ∀ batch, c' = .exclusive batch → s.count = 0) :
    GateInv (s.move i c') := by
  refine .set hi (by rw [hshares]) (by rw [hclaims]) inv.word inv.count inv.one fun batch hmem => ?_
  rcases mem_or_eq_of_mem_set hmem with h | h
  · exact inv.drained batch h
  · exact hdrained batch h.symm

lemma claimed_pos (hi : s.callers[i]? = some c) (hc : c.claims = true) : 0 < s.claimed :=
  Table.countP_pos_of_getElem? hi hc

lemma count_pos (hi : s.callers[i]? = some .shared) : 0 < s.count :=
  Table.countP_pos_of_getElem? hi rfl

/-- An entry that tries has found no claimant. -/
lemma GateInv.unclaimed (inv : GateInv s) {entry : Entry} (h : entry.tries s.state = true) :
    s.claimed = 0 := by
  have hbit : s.state &&& writeBit = 0 := by
    cases entry with
    | shared => exact (of_decide_eq_true h).1
    | exclusive => exact of_decide_eq_true h
  rw [inv.word, and_writeBit inv.count inv.one] at hbit
  exact (Nat.mul_eq_zero.mp hbit).resolve_right (by decide)

/-- A thread gets through its exchange: it is counted, or it is the one claimant. -/
lemma GateInv.succeed (inv : GateInv s) {entry : Entry}
    (hi : s.callers[i]? = some (.loaded entry s.state)) (htries : entry.tries s.state = true) :
    GateInv ⟨(entry.succeed s.state).1, s.callers.set i (entry.succeed s.state).2⟩ := by
  have hnone := inv.unclaimed htries
  have hlt := inv.count
  have hword : s.state = s.count := by simpa [hnone] using inv.word
  have hdrained : ∀ batch, .exclusive batch ∉ s.callers.set i (entry.succeed s.state).2 := by
    intro batch hmem
    rcases mem_or_eq_of_mem_set hmem with h | h
    · obtain ⟨k, hk⟩ := mem_iff_getElem?.mp h
      exact (claimed_pos hk rfl).ne' hnone
    · cases entry <;> cases h
  cases entry with
  | shared =>
    have hmask : s.count ≠ countMask := by
      have := (of_decide_eq_true htries).2
      rwa [inv.word, and_countMask hlt] at this
    refine .set (n := s.count + 1) (k := 0) hi rfl hnone ?_ ?_ zero_le_one
      fun batch h => absurd h (hdrained batch)
    · simp [Entry.succeed, hword]
    · simp only [countMask, writeBit] at hmask hlt ⊢
      omega
  | exclusive =>
    refine .set (n := s.count) (k := 1) hi rfl (by rw [hnone]; rfl) ?_ hlt le_rfl
      fun batch h => absurd h (hdrained batch)
    rw [Entry.succeed, hword, or_writeBit hlt, one_mul]

lemma GateInv.leaveShared (inv : GateInv s) (hi : s.callers[i]? = some .shared) :
    GateInv ⟨fetchSubOne s.state, s.callers.set i .outside⟩ := by
  have hpos := count_pos hi
  obtain ⟨hword, hlt, hone, hdrained⟩ := inv
  refine .set (n := s.count - 1) hi (Nat.sub_add_cancel hpos).symm rfl ?_ (by omega) hone
    fun batch hmem => ?_
  · simp only [writeBit, fetchSubOne] at hword hlt ⊢
    omega
  · rcases mem_or_eq_of_mem_set hmem with h | h
    · rw [hdrained batch h]
    · cases h

lemma GateInv.leaveExclusive (inv : GateInv s) {batch : Bool}
    (hi : s.callers[i]? = some (.exclusive batch)) :
    GateInv ⟨0, s.callers.set i .outside⟩ := by
  have hzero := inv.drained batch (mem_of_getElem? hi)
  have hone := le_antisymm inv.one (claimed_pos hi rfl)
  exact .set (n := 0) (k := 0) hi hzero hone rfl (by decide) zero_le_one fun _ _ => rfl

/-- What a step can do. -/
inductive Moves (s : Gate) (a : GateAction) : Gate → Prop
  | stays : Moves s a s
  | moves {i : ℕ} {c c' : Caller} (hi : s.callers[i]? = some c) (hshares : c'.shares = c.shares)
      (hclaims : c'.claims = c.claims)
      (hdrained : ∀ batch, c' = .exclusive batch → s.state &&& countMask = 0) :
      Moves s a (s.move i c')
  | succeeds {i : ℕ} {entry : Entry} (hi : s.callers[i]? = some (.loaded entry s.state))
      (htries : entry.tries s.state = true) :
      Moves s a ⟨(entry.succeed s.state).1, s.callers.set i (entry.succeed s.state).2⟩
  | leavesShared {i : ℕ} (hi : s.callers[i]? = some .shared) (ha : a = .leave i) :
      Moves s a ⟨fetchSubOne s.state, s.callers.set i .outside⟩
  | leavesExclusive {i : ℕ} {batch : Bool} (hi : s.callers[i]? = some (.exclusive batch))
      (ha : a = .leave i) : Moves s a ⟨0, s.callers.set i .outside⟩

variable {a : GateAction}

lemma moves_of_step (hstep : gateStep s a = some s') : Moves s a s' := by
  cases a with
  | enter i entry | load i =>
    simp only [gateStep] at hstep
    split at hstep <;> cases hstep
    next hi => exact .moves hi rfl rfl nofun
  | exchange i spurious =>
    simp only [gateStep] at hstep
    split at hstep <;> try contradiction
    next entry cur hi =>
      split_ifs at hstep with hcond <;> cases hstep
      · obtain ⟨htries, rfl, -⟩ := hcond
        exact .succeeds hi htries
      · exact .moves hi rfl rfl nofun
  | drain i =>
    simp only [gateStep] at hstep
    split at hstep <;> try contradiction
    next batch hi =>
      split_ifs at hstep with hzero <;> cases hstep
      · exact .moves hi rfl rfl fun _ _ => hzero
      · exact .stays
  | leave i =>
    simp only [gateStep] at hstep
    split at hstep <;> try contradiction
    · next hi =>
      obtain rfl := Option.some.inj hstep
      exact .leavesShared hi rfl
    · next hi =>
      obtain rfl := Option.some.inj hstep
      exact .leavesExclusive hi rfl

/-- The step lemma. -/
lemma GateInv.step (inv : GateInv s) (hstep : gateStep s a = some s') : GateInv s' := by
  cases moves_of_step hstep with
  | stays => exact inv
  | moves hi hshares hclaims hdrained =>
    refine inv.move hi hshares hclaims fun batch hbatch => ?_
    have hzero := hdrained batch hbatch
    rwa [inv.word, and_countMask inv.count] at hzero
  | succeeds hi htries => exact inv.succeed hi htries
  | leavesShared hi => exact inv.leaveShared hi
  | leavesExclusive hi => exact inv.leaveExclusive hi

/-! ## Exclusion -/

/-- There is one claimant at most. -/
lemma GateInv.eq_of_claims (inv : GateInv s) (hi : s.callers[i]? = some c) (hc : c.claims = true)
    (hj : s.callers[j]? = some c') (hc' : c'.claims = true) : i = j := by
  by_contra hne
  have hend := Table.countP_set_of_end (y := .outside) hi hc rfl
  have hother : (s.callers.set i .outside)[j]? = some c' := (getElem?_set_ne hne).trans hj
  have hpos := Table.countP_pos_of_getElem? hother hc'
  have hone : s.callers.countP Caller.claims ≤ 1 := inv.one
  omega

/-- The thread `i` has set the bit. -/
def Gate.ClaimedBy (s : Gate) (i : ℕ) : Prop := ∃ c, s.callers[i]? = some c ∧ c.claims = true

lemma Gate.ClaimedBy.set (h : s.ClaimedBy i) {state : ℕ} (hj : s.callers[j]? = some c)
    (hc : i = j → c'.claims = c.claims) : (Gate.mk state (s.callers.set j c')).ClaimedBy i := by
  obtain ⟨d, hd, hclaims⟩ := h
  by_cases hij : i = j
  · subst hij
    cases hd.symm.trans hj
    exact ⟨c', getElem?_set_self (List.getElem?_eq_some_iff.mp hd).1, (hc rfl).trans hclaims⟩
  · exact ⟨d, (getElem?_set_ne (Ne.symm hij)).trans hd, hclaims⟩

/-- A claimant stays one until it leaves. -/
lemma Gate.ClaimedBy.step (h : s.ClaimedBy i) (ha : a ≠ .leave i)
    (hstep : gateStep s a = some s') : s'.ClaimedBy i := by
  obtain ⟨d, hd, hclaims⟩ := id h
  cases moves_of_step hstep with
  | stays => exact h
  | moves hj _ hc _ => exact h.set hj fun _ => hc
  | succeeds hj _ =>
    refine h.set hj ?_
    rintro rfl
    cases hd.symm.trans hj
    cases hclaims
  | leavesShared hj hleave | leavesExclusive hj hleave =>
    exact h.set hj fun hij => absurd (hij ▸ hleave) ha

/-- While there is a claimant no step makes a shared holder. -/
lemma GateInv.no_entry (inv : GateInv s) (h : s.ClaimedBy i) (hstep : gateStep s a = some s')
    (hj : s'.callers[j]? = some .shared) : s.callers[j]? = some .shared := by
  obtain ⟨d, hd, hclaims⟩ := h
  cases moves_of_step hstep with
  | stays => exact hj
  | @moves k c c' hk hshares =>
    rcases Table.getElem?_set_cases hj with ⟨rfl, rfl⟩ | ⟨-, hj⟩
    · cases c <;> first | exact hk | cases hshares
    · exact hj
  | succeeds _ htries => exact absurd (inv.unclaimed htries) (claimed_pos hd hclaims).ne'
  | leavesShared | leavesExclusive =>
    rcases Table.getElem?_set_cases hj with ⟨-, h⟩ | ⟨-, hj⟩
    · cases h
    · exact hj

/-- In every run: a thread that holds the gate exclusively, for itself or for a batch, is the
only holder; the word is then the write bit, nobody is counted and nobody else has claimed the
gate, so the store of zero at its release drops nothing; and from the step that sets the write
bit to the release of the thread that set it no shared entry succeeds. -/
theorem gate_exclusion {n : ℕ} {as : List GateAction}
    (hrun : FreePath gateStep (Gate.new n) as s) :
    (∀ i batch, s.callers[i]? = some (.exclusive batch) →
      (∀ j c, s.callers[j]? = some c → j ≠ i → c.shares = false ∧ c.claims = false) ∧
        s.state = writeBit ∧ ∃ s', gateStep s (.leave i) = some s' ∧ s'.state = 0) ∧
      ∀ i, s.ClaimedBy i → ∀ bs t, Path gateStep (fun _ a => a ≠ .leave i) s bs t →
        ∀ a t', gateStep t a = some t' → ∀ j : ℕ, t'.callers[j]? = some .shared →
          t.callers[j]? = some .shared := by
  have inv : GateInv s := hrun.invariant (fun _ _ _ inv _ hstep => inv.step hstep) (gateInv_new n)
  refine ⟨fun i batch hi => ⟨fun j c hj hne => ⟨?_, ?_⟩, ?_, ?_⟩, fun i hi bs t hpath => ?_⟩
  · have hzero := inv.drained batch (mem_of_getElem? hi)
    cases c <;> first | rfl | exact absurd hzero (count_pos hj).ne'
  · by_contra hclaims
    exact hne (inv.eq_of_claims hj (by simpa using hclaims) hi rfl)
  · rw [inv.word, inv.drained batch (mem_of_getElem? hi),
      le_antisymm inv.one (claimed_pos hi rfl), zero_add, one_mul]
  · simp [gateStep, hi]
  · obtain ⟨inv, hclaimed⟩ : GateInv t ∧ t.ClaimedBy i :=
      hpath.invariant (I := fun t => GateInv t ∧ t.ClaimedBy i)
        (fun _ _ _ h ha hstep => ⟨h.1.step hstep, h.2.step ha hstep⟩) ⟨inv, hi⟩
    exact fun a t' hstep j hj => inv.no_entry hclaimed hstep hj

/-- A batch claims the gate while a reader is in it and gets through when the reader has left; a
second reader that has loaded the word before loses its exchange. -/
def batchAfterReader : List GateAction :=
  [.enter 0 .shared, .load 0, .exchange 0 false, .enter 2 .shared, .load 2,
    .enter 1 (.exclusive true), .load 1, .exchange 1 true, .load 1, .exchange 1 false,
    .exchange 2 false, .drain 1, .leave 0, .drain 1]

theorem gate_exclusion_batchAfterReader :
    ∃ s, FreePath gateStep (Gate.new 3) batchAfterReader s ∧ s.state = writeBit ∧
      s.callers = [.outside, .exclusive true, .entering .shared] := by
  obtain ⟨s, hexec, hend⟩ := exists_of_exec_any (show (exec gateStep (Gate.new 3)
    batchAfterReader).any (fun s => decide (s.callers =
      [.outside, .exclusive true, .entering .shared])) = true by decide +kernel)
  have hcallers := of_decide_eq_true hend
  have hrun := freePath_of_exec hexec
  exact ⟨s, hrun, ((gate_exclusion hrun).1 1 true (by rw [hcallers]; rfl)).2.1, hcallers⟩

end Concurrency
end Holt
