import Holt.Checkpoint.Recovery
import Holt.Checkpoint.TruncationInvariant

/-!
# What a truncation drops

The log may go when nothing is dirty, nothing is flushing and nothing waits for a flush.  The
test reads `dirty_count` before `flushing_count`, and a round may give back an entry in
between, or while the first of them goes through its shards: the blob was flushing at the first
read and is dirty at the second, so both read zero and the log goes while the blob's last image
is in the cache alone (`restored_in_test`).  In the source this takes two manual checkpoints of a
`DB`, which share the maintenance gate: one finds a captured blob stale and restores all of its
entries while the other, which has just written that blob, tests the counters.

`truncate_safe` is what holds when no entry is restored during those two reads: at every
truncation the durable blobs hold exactly the writes made so far, and every dropped record's
writes are among them or gave way to later writes of their keys that are.
-/

namespace Holt
namespace Checkpoint

open List Option PrefixForest Holt.Tree Transition

/-! ## A blob restored during the test -/

/-- A root with one child for the keys that start with `b`. -/
def twoBlobs : Blobs ℕ := fun g =>
  if g = 0 then some ⟨fun _ => none, [([98], 1)]⟩
  else if g = 1 then some ⟨fun _ => none, []⟩
  else none

def twoPaths : ℕ → List Byte := fun g => if g = 1 then [98] else []

/-- Thread 0 writes a record in blob `g` and logs it. -/
def writeTo (g : ℕ) (key : Key) (value : Value) (seq : ℕ) : List (EngineAction ℕ) :=
  [.enterWriter 0, .manager (.pinResident 0 g), .write 0 key (some value), .markDirty 0 seq,
    .manager (.unpin 0), .submit 0, .leaveWriter 0]

/-- Thread 1 captures both blobs; the root is written again, and thread 2 captures it and writes
it through; thread 1 finds its root entry stale and gives back both entries while thread 2
tests. -/
def racingCheckpoints : List (EngineAction ℕ) :=
  List.flatten [writeTo 1 [98] [1] 1, writeTo 0 [97] [1] 2,
    [.enterCheckpoint 1, .drainDirty 1 1, .drainDirty 1 0, .readVersion 1 0, .readVersion 1 1,
      .leaveCheckpoint 1],
    writeTo 0 [97] [2] 3,
    [.manager (.cloneBytes 0), .manager (.cloneBytes 1),
      .enterCheckpoint 2, .drainDirty 2 0, .readVersion 2 2, .leaveCheckpoint 2,
      .manager (.cloneBytes 2), .manager (.beginBatch [2]), .manager (.checkCurrent 2),
      .manager (.writeBlob 2), .manager (.retire 2), .manager .endBatch, .flushInner,
      .enterCheckpoint 2, .beginTest 2, .testDirty 2,
      .giveUp 0, .manager (.restoreDirty 0), .manager (.restoreDirty 1),
      .testFlushing 2, .testOrphanStaging 2, .testWriteDelta 2, .testNeedsFlush 2]]

/-- The log is truncated although the first record's write is not durable. -/
theorem restored_in_test :
    ∃ s s' : Engine ℕ,
      FreePath (engineStep 0) (Engine.open twoBlobs twoPaths [0, 1] 3 1) racingCheckpoints s ∧
      engineStep 0 s (.truncate 2) = some s' ∧
      [⟨[98], some ⟨[1], 1⟩, 1⟩] ∈ s.wal ∧ s'.wal = [] ∧
      applyWrites (lookupBlobs twoBlobs 0) s.applied [98] = some ⟨[1], 1⟩ ∧
      lookupBlobs s'.durable 0 [98] = none := by
  obtain ⟨s, hexec, hend⟩ := exists_of_exec_any
    (show (exec (engineStep 0) (Engine.open twoBlobs twoPaths [0, 1] 3 1) racingCheckpoints).any
      (fun s => (engineStep 0 s (.truncate 2)).any (fun s' =>
        decide ([⟨[98], some ⟨[1], 1⟩, 1⟩] ∈ s.wal ∧ s'.wal = [] ∧
          applyWrites (lookupBlobs twoBlobs 0) s.applied [98] = some ⟨[1], 1⟩ ∧
          lookupBlobs s'.durable 0 [98] = none))) = true by decide +kernel)
  obtain ⟨s', htruncate, hs'⟩ := Option.any_eq_true _ _ |>.mp hend
  exact ⟨s, s', freePath_of_exec hexec, htruncate, of_decide_eq_true hs'⟩

/-! ## Runs -/

section Runs

variable {γ : Type*} [DecidableEq γ] {root : γ} {base : Key → Option Record} {s s' : Engine γ}
  {a : EngineAction γ}

/-- What every state of a run satisfies. -/
structure EngineInv (root : γ) (base : Key → Option Record) (s : Engine γ) : Prop where
  frames : Frames root base s
  admission : Admission s
  logged : Logged s

variable {t : ℕ}

omit [DecidableEq γ] in
lemma not_mutated_of_marking (h : s.marking t = false) (g : γ) :
    s.mgr.threads[t]? ≠ some (.mutated g) := by
  intro heq
  simp [Engine.marking, heq] at h

omit [DecidableEq γ] in
lemma not_flusher (h : s.flush.all (fun f => f.1 ≠ t) = true) (ops : List DeltaOp) :
    s.flush ≠ some (t, ops) := by
  intro heq
  simp [heq] at h

variable (inv : EngineInv root base s)
include inv

lemma EngineInv.setRole {r r' : Role} (hr : s.roles[t]? = some r)
    (hadm : Admission (s.setRole t r')) (hstaging : r'.staging = r.staging)
    (hunlogged : r'.unlogged = []) : EngineInv root base (s.setRole t r') :=
  ⟨inv.frames.same inv.frames.mgr rfl inv.frames.durable, hadm,
    inv.logged.keepDelta rfl le_rfl (fun _ h => h) (Table.map_set_of_eq hr hstaging)
      (Table.forall_mem_set inv.logged.unlogged (by simp [hunlogged])) (fun _ h => .inl h)⟩

lemma inv_gateStep (hstep : gateStep s a = some s') :
    EngineInv root base s' := by
  have adm := inv.admission
  cases a <;> simp only [gateStep, reduceCtorEq] at hstep
  case enterWriter t =>
    obtain ⟨h, rfl⟩ := guard_eq_some.mp hstep
    refine inv.setRole h.1 (adm.setRole h.1 (alone_enter fun q hq => .inr ⟨?_, rfl⟩)
      (.inl rfl) nofun) rfl rfl
    simpa using List.all_eq_true.mp h.2 q hq
  case leaveWriter t =>
    obtain ⟨h, rfl⟩ := guard_eq_some.mp hstep
    exact inv.setRole h.1 (adm.setRole h.1 (adm.alone.setSame (m := 0) h.1 (.inl rfl))
      (.inr ⟨not_mutated_of_marking h.2.1, not_flusher h.2.2⟩) nofun) rfl rfl
  case enterCheckpoint t =>
    obtain ⟨h, rfl⟩ := guard_eq_some.mp hstep
    refine inv.setRole h.1 (adm.setRole h.1 (alone_enter fun q hq => .inl ?_) (.inl rfl) ?_)
      rfl rfl
    · simpa using List.all_eq_true.mp h.2 q hq
    · rintro n ⟨⟩
      exact tested_zero
  case leaveCheckpoint t =>
    split at hstep <;> try contradiction
    next n hr =>
      obtain ⟨h, rfl⟩ := guard_eq_some.mp hstep
      exact inv.setRole hr (adm.setRole hr (adm.alone.setSame (m := 0) hr (.inl rfl))
        (.inr ⟨not_mutated_of_marking h.1, not_flusher h.2⟩) nofun) rfl rfl

omit inv in
lemma marking_of_mutate {m m' : Store.Manager γ (Blob γ)} {g : γ} {image : Blob γ}
    (hthread : m.threads[t]? = some (.pinned g)) (hstep : Store.step m (.mutate t image) = some m')
    (i : ℕ) (h : γ) (hi : m'.threads[i]? = some (.mutated h)) :
    i = t ∨ m.threads[i]? = some (.mutated h) := by
  obtain ⟨c, -, rfl⟩ := step_mutate hthread hstep
  rcases Table.getElem?_set_cases hi with ⟨rfl, -⟩ | ⟨-, h'⟩
  · exact .inl rfl
  · exact .inr h'

lemma inv_frameStep (hstep : frameStep root s a = some s') :
    EngineInv root base s' := by
  obtain ⟨frames, adm, log⟩ := inv
  cases a <;> simp only [frameStep, reduceCtorEq] at hstep
  case write t key value =>
    split at hstep <;> try contradiction
    next g blob unlogged staging htarget hr =>
      split_ifs at hstep with howner
      obtain ⟨mgr, hm, rfl⟩ := map_eq_some_iff.mp hstep
      obtain ⟨-, hthread, -⟩ := target_eq_some htarget
      refine ⟨frames.writeRecord htarget howner hm,
        adm.byWriter hr rfl (.inr ⟨_, _, rfl⟩) (marking_of_mutate hthread hm)
          (fun i ops h => .inr ⟨ops, h⟩), ?_⟩
      have hkept : ∀ x, ∀ r ∈ s.roles, ∀ w ∈ r.unlogged, w ∈ s.applied ++ [x] :=
        fun x r hr w hw => mem_append_left _ (log.unlogged r hr w hw)
      exact log.keepDelta rfl (Nat.le_succ _) (fun w h => mem_append_left _ h)
        (Table.map_set_of_eq hr rfl) (Table.forall_mem_set (hkept _)
          (Table.forall_mem_concat (hkept _ _ (mem_of_getElem? hr)) (by simp)))
        (fun _ h => .inl h)
  case spill t p c =>
    split at hstep <;> try contradiction
    next g blob htarget =>
      split_ifs at hstep with hcond
      obtain ⟨hc, hbelow, hdeeper, hun⟩ := hcond
      obtain ⟨mgr, hm, rfl⟩ := map_eq_some_iff.mp hstep
      obtain ⟨⟨r, hr, hw⟩, hthread, -⟩ := target_eq_some htarget
      rw [List.isPrefixOf_iff_prefix] at hbelow
      have hun' : ∀ e ∈ blob.edges, ¬ e.1 <+: p := fun e he hep => by
        have := List.all_eq_true.mp hun e he
        simp [List.isPrefixOf_iff_prefix.mpr hep] at this
      have hthread' : (install s.mgr c (blob.below p) s.nextSeq).threads[t]? =
        some (.pinned g) := hthread
      have hmark := marking_of_mutate hthread' hm
      exact ⟨frames.spill htarget hc hbelow hdeeper hun' hm rfl,
        adm.byWriter hr hw (.inl rfl) hmark (fun i ops h => .inr ⟨ops, h⟩),
        log.same rfl⟩
  case merge t p c =>
    split at hstep <;> try contradiction
    next g blob child htarget hchild =>
      split_ifs at hstep with hcond
      obtain ⟨mgr, hm, rfl⟩ := map_eq_some_iff.mp hstep
      obtain ⟨⟨r, hr, hw⟩, hthread, -⟩ := target_eq_some htarget
      exact ⟨frames.merge htarget hchild hcond.1 hcond.2 hm rfl,
        adm.byWriter hr hw (.inl rfl) (marking_of_mutate hthread hm)
          (fun i ops h => .inr ⟨ops, h⟩),
        log.same rfl⟩
  case compact t =>
    split at hstep <;> try contradiction
    next g blob htarget =>
      obtain ⟨mgr, hm, rfl⟩ := map_eq_some_iff.mp hstep
      obtain ⟨⟨r, hr, hw⟩, hthread, -⟩ := target_eq_some htarget
      exact ⟨frames.compact htarget hm,
        adm.byWriter hr hw (.inl rfl) (marking_of_mutate hthread hm)
          (fun i ops h => .inr ⟨ops, h⟩),
        log.same rfl⟩
  case markDirty t seq =>
    split at hstep <;> try contradiction
    next g hthread =>
      obtain ⟨mgr, hm, rfl⟩ := map_eq_some_iff.mp hstep
      obtain ⟨r, hr, hw⟩ := adm.marking t g hthread
      refine ⟨frames.markDirty hm, adm.byWriter hr hw (.inl rfl) (fun i h hi => ?_)
          (fun i ops h => .inr ⟨ops, h⟩),
        log.same rfl⟩
      simp only [Store.step, Store.threadStep, Store.checkpointStep, or_none,
        hthread] at hm
      split at hm <;> cases hm <;>
        exact .inr (mutated_of_set (by simp) i h hi)
  case applyDelta t =>
    split at hstep <;> try contradiction
    next g blob flusher op rest htarget hflush =>
      split_ifs at hstep with hcond
      obtain ⟨rfl, howner⟩ := hcond
      obtain ⟨mgr, hm, rfl⟩ := map_eq_some_iff.mp hstep
      obtain ⟨⟨r, hr, hw⟩, hthread, -⟩ := target_eq_some htarget
      refine ⟨frames.writeRecord htarget howner hm,
        adm.byWriter hr hw (.inl rfl) (marking_of_mutate hthread hm) (fun i ops h => ?_),
        log.applyDelta hflush⟩
      exact .inl (Prod.mk.inj (Option.some.inj h)).1.symm
  case skipDelta t =>
    split at hstep <;> try contradiction
    next flusher op rest hflush =>
      split_ifs at hstep with hcond
      obtain ⟨rfl, hrecord, habsent⟩ := hcond
      cases hstep
      obtain ⟨r, hr, hw⟩ := adm.flusher flusher _ hflush
      refine ⟨frames.skipDelta hrecord habsent,
        adm.byWriter hr hw (.inl rfl) (fun i h hi => .inr hi) (fun i ops h => ?_),
        log.applyDelta hflush⟩
      exact .inl (Prod.mk.inj (Option.some.inj h)).1.symm

lemma inv_logStep (hstep : logStep s a = some s') :
    EngineInv root base s' := by
  obtain ⟨frames, adm, log⟩ := inv
  cases a <;> simp only [logStep, reduceCtorEq] at hstep
  case submit t =>
    split at hstep <;> try contradiction
    next unlogged staging hr =>
      cases hstep
      refine ⟨frames.same frames.mgr rfl frames.durable,
        adm.byWriter hr rfl (.inr ⟨_, _, rfl⟩) (fun i h hi => .inr hi)
          (fun i ops h => .inr ⟨ops, h⟩), ?_⟩
      refine log.keepDelta rfl le_rfl (fun _ h => h) (Table.map_set_of_eq hr rfl)
        (Table.forall_mem_set log.unlogged nofun) (fun record hrecord => ?_)
      rcases mem_append.mp hrecord with h | h
      · exact .inl h
      · exact .inr (mem_singleton.mp h ▸ log.unlogged _ (mem_of_getElem? hr))
  case submitStaged t key value =>
    split_ifs at hstep with hcond
    obtain ⟨hr, hflush, hkeys⟩ := hcond
    cases hstep
    refine ⟨frames.same frames.mgr rfl frames.durable,
      adm.byWriter hr rfl (.inr ⟨_, _, rfl⟩) (fun i h hi => .inr hi)
        (fun i ops h => .inr ⟨ops, h⟩), log.submitStaged hr hflush ?_ ?_⟩
    · intro r hrmem d hd
      have := List.all_eq_true.mp hkeys r hrmem
      simpa [hd] using this
    · cases value <;> rfl
  case stage t =>
    split at hstep <;> try contradiction
    next unlogged op hr =>
      cases hstep
      exact ⟨frames.same frames.mgr rfl frames.durable,
        adm.byWriter hr rfl (.inr ⟨_, _, rfl⟩) (fun i h hi => .inr hi)
          (fun i ops h => .inr ⟨ops, h⟩), log.stage hr⟩
  case beginFlush t =>
    split at hstep <;> try contradiction
    next r hr =>
      split_ifs at hstep with hcond
      obtain ⟨hw, hflush, hunstaged⟩ := hcond
      cases hstep
      refine ⟨frames.same frames.mgr rfl frames.durable,
        adm.byWriter hr hw (.inl rfl) (fun i h hi => .inr hi) (fun i ops h => ?_),
        log.beginFlush t hflush ?_⟩
      · exact .inl (Prod.mk.inj (Option.some.inj h)).1.symm
      · intro q hq
        simpa using List.all_eq_true.mp hunstaged q hq
  case finishFlush t =>
    obtain ⟨hflush, rfl⟩ := guard_eq_some.mp hstep
    obtain ⟨r, hr, hw⟩ := adm.flusher t _ hflush
    exact ⟨frames.same frames.mgr rfl frames.durable,
      adm.byWriter hr hw (.inl rfl) (fun i h hi => .inr hi) nofun,
      log.finishFlush hflush⟩
  case abortFlush t =>
    split at hstep <;> try contradiction
    next flusher ops hflush =>
      obtain ⟨hcond, rfl⟩ := guard_eq_some.mp hstep
      obtain ⟨r, hr, hw⟩ := adm.flusher flusher _ hflush
      exact ⟨frames.same frames.mgr rfl frames.durable,
        adm.byWriter hr hw (.inl rfl) (fun i h hi => .inr hi) nofun,
        log.abortFlush hflush⟩

omit inv in
/-- Tests that have found no flushing entry know that no entry is left. -/
lemma Frames.no_entry (frames : Frames root base s) (h : ∀ g, s.mgr.flushing g = 0)
    {x : Store.Entry γ (Blob γ)} (hx : x ∈ s.mgr.entries) : x.holds x.guid = false := by
  by_contra hne
  have hpos := countP_pos_iff.mpr ⟨x, hx, by simpa using hne⟩
  rw [← frames.mgr.flushing x.guid, h x.guid] at hpos
  exact lt_irrefl 0 hpos

lemma inv_entryStep (hguard : NoRestoreInTest s a) (hstep : entryStep s a = some s') :
    EngineInv root base s' := by
  obtain ⟨frames, adm, log⟩ := inv
  cases a <;> simp only [entryStep, reduceCtorEq] at hstep
  case drainDirty t g =>
    split_ifs at hstep with hr
    obtain ⟨mgr, hm, rfl⟩ := map_eq_some_iff.mp hstep
    have hguard' : Store.NoWriteSinceRead s.mgr (.drainDirty g) := trivial
    have hinv := Store.inv_step frames.mgr hguard' hm
    simp only [Store.step, Store.threadStep, Store.checkpointStep, none_or] at hm
    obtain ⟨seq, -, rfl⟩ := map_eq_some_iff.mp hm
    exact ⟨frames.same hinv rfl frames.durable,
      adm.byWriter hr rfl (.inl rfl) (fun i h hi => .inr hi) (fun i ops h => .inr ⟨ops, h⟩),
      log.same rfl⟩
  case dropRetired t g =>
    split_ifs at hstep with hcond
    obtain ⟨hr, hret, -⟩ := hcond
    cases hstep
    exact ⟨frames.same (frames.mgr.lessDirty (.inl (.inl hret))) rfl frames.durable,
      adm.byWriter hr rfl (.inl rfl) (fun i h hi => .inr hi) (fun i ops h => .inr ⟨ops, h⟩),
      log.same rfl⟩
  case readVersion t e =>
    split_ifs at hstep with hr
    obtain ⟨mgr, hm, rfl⟩ := map_eq_some_iff.mp hstep
    have hguard' : Store.NoWriteSinceRead s.mgr (.readVersion e) := trivial
    have hinv := Store.inv_step frames.mgr hguard' hm
    simp only [Store.step, Store.threadStep, Store.checkpointStep, none_or] at hm
    split at hm <;> try contradiction
    obtain ⟨c, -, rfl⟩ := map_eq_some_iff.mp hm
    exact ⟨frames.same hinv rfl frames.durable,
      adm.byWriter hr rfl (.inl rfl) (fun i h hi => .inr hi) (fun i ops h => .inr ⟨ops, h⟩),
      log.same rfl⟩
  case giveUp e =>
    split at hstep <;> try contradiction
    next x hx =>
      obtain ⟨hphase, rfl⟩ := guard_eq_some.mp hstep
      have hlive : x.holds x.guid = true := by
        cases hp : x.phase <;> simp_all [abandonable, Store.Entry.holds]
      exact ⟨frames.same (frames.mgr.abandon hx hlive) rfl frames.durable,
        adm.ungated rfl rfl (fun _ _ h => h) (fun _ _ _ h => { h with }),
        log.same rfl⟩
  case manager b =>
    split_ifs at hstep with hb
    obtain ⟨mgr, hm, rfl⟩ := map_eq_some_iff.mp hstep
    have hungated := ungated_of_step hb hm
    refine ⟨frames.manager hb hm, adm.ungated rfl rfl hungated.threads ?_,
      log.same rfl⟩
    intro t n hr htest
    -- once both counters have read zero, no entry is left to restore or to write
    have hnone : 3 ≤ n → ¬ (isStoreWrite b = true ∨ ∃ e, b = .restoreDirty e) := by
      intro hn h
      obtain ⟨x, hx, hholds⟩ := hungated.held h
      rw [frames.no_entry (htest.flushing hn) hx] at hholds
      exact absurd hholds Bool.false_ne_true
    have hrestore : 2 ≤ n → ∀ e, b ≠ .restoreDirty e := by
      rintro hn e rfl
      rcases Nat.lt_or_ge 2 n with h3 | h2
      · exact hnone h3 (.inr ⟨e, rfl⟩)
      · obtain rfl : n = 2 := le_antisymm h2 hn
        exact (hguard _ (mem_of_getElem? hr)).2 rfl
    refine ⟨fun hn g => hungated.dirty (hrestore hn) g (htest.dirty hn g), fun hn g => ?_,
      htest.delta, fun hn => ?_⟩
    · exact Nat.le_zero.mp (htest.flushing hn g ▸ hungated.flushing g)
    · have hwrite : isStoreWrite b = false := by
        by_contra h
        exact hnone (by omega) (.inl (by simpa using h))
      simp [htest.needsFlush hn, hwrite]
  case flushInner =>
    cases hstep
    exact ⟨frames.same frames.mgr rfl (fun _ => rfl),
      adm.ungated rfl rfl (fun _ _ h => h)
        (fun _ _ _ h => { h with needsFlush := fun _ => rfl }),
      log.same rfl⟩
  case reclaim g =>
    split_ifs at hstep with hcond
    obtain ⟨hret, hall, hprot, hpins⟩ := hcond
    cases hstep
    refine ⟨frames.reclaim hret hprot hpins rfl, adm.ungated rfl rfl (fun _ _ h => h) ?_,
      log.same rfl⟩
    intro t n hr
    have := List.all_eq_true.mp hall _ (mem_of_getElem? hr)
    simp at this

lemma inv_test {n : ℕ} {clean : Bool}
    (htested : s.roles[t]? = some (.checkpoint n) → clean = true → Tested s n → Tested s (n + 1))
    (hquiet : n = 0 → (∀ g, s.mgr.threads[t]? ≠ some (.mutated g)) ∧
      ∀ ops, s.flush ≠ some (t, ops)) (hstep : test s t n clean = some s') :
    EngineInv root base s' := by
  have adm := inv.admission
  unfold test at hstep
  split_ifs at hstep with hcond
  obtain ⟨hr, hclean⟩ := hcond
  cases hstep
  refine inv.setRole hr (adm.setRole hr (adm.alone.setSame hr (.inr rfl)) (.inr ?_) ?_) rfl rfl
  · rcases Nat.eq_zero_or_pos n with h0 | hpos
    · exact hquiet h0
    · -- a thread past its first test changes no frame
      have hno : ¬ ∃ r, s.roles[t]? = some r ∧ r.writes = true := by
        rintro ⟨r, hr', hw⟩
        cases hr.symm.trans hr'
        obtain ⟨m, rfl⟩ := Nat.exists_eq_succ_of_ne_zero hpos.ne'
        simp [Role.writes] at hw
      exact ⟨fun g h => hno (adm.marking t g h), fun ops h => hno (adm.flusher t ops h)⟩
  · rintro m ⟨⟩
    exact htested hr hclean (adm.tested t n hr)

lemma inv_testStep (hstep : testStep s a = some s') :
    EngineInv root base s' := by
  have frames := inv.frames
  cases a <;> simp only [testStep, reduceCtorEq] at hstep
  case beginTest t =>
    split_ifs at hstep with hcond
    exact inv_test inv (fun _ _ _ => ⟨by simp, by simp, by simp, by simp⟩)
      (fun _ => ⟨not_mutated_of_marking hcond.1, by simp [hcond.2]⟩) hstep
  case testDirty t =>
    refine inv_test inv (fun _ hclean h => ⟨fun _ g => ?_, by simp, by simp, by simp⟩) (by simp)
      hstep
    -- a dirty blob is resident, so the counter has seen it
    by_contra hne
    have hmem := frames.known g (frames.mgr.dirtyCached g hne)
    have := List.all_eq_true.mp hclean g hmem
    simp_all
  case testFlushing t =>
    refine inv_test inv (fun _ hclean h => ⟨fun _ => h.dirty le_rfl, fun _ g => ?_, by simp,
      by simp⟩) (by simp) hstep
    by_contra hne
    have hpos : 0 < s.mgr.flushing g := Nat.pos_of_ne_zero hne
    rw [frames.mgr.flushing g] at hpos
    obtain ⟨x, hx, hholds⟩ := countP_pos_iff.mp hpos
    have hmem := frames.known g (frames.mgr.held x hx g hholds)
    have := List.all_eq_true.mp hclean g hmem
    simp_all
  case testOrphanStaging t =>
    exact inv_test inv (fun _ _ h => ⟨fun _ => h.dirty (by omega), fun _ => h.flushing le_rfl,
      by simp, by simp⟩) (by simp) hstep
  case testWriteDelta t =>
    refine inv_test inv (fun _ hclean h => ⟨fun _ => h.dirty (by omega),
      fun _ => h.flushing (by omega), fun _ => ?_, by simp⟩) (by simp) hstep
    simp only [Bool.and_eq_true, List.isEmpty_iff] at hclean
    exact hclean.1
  case testNeedsFlush t =>
    refine inv_test inv (fun _ hclean h => ⟨fun _ => h.dirty (by omega),
      fun _ => h.flushing (by omega), fun _ => h.delta le_rfl, fun _ => ?_⟩) nofun hstep
    simpa using hclean
  case truncate t =>
    obtain ⟨hr, rfl⟩ := guard_eq_some.mp hstep
    have adm := inv.admission
    have hrole : EngineInv root base (s.setRole t (.checkpoint 0)) := by
      refine inv.setRole hr (adm.setRole hr (adm.alone.setSame hr (.inr rfl)) (.inl rfl) ?_)
        rfl rfl
      rintro m ⟨⟩
      exact tested_zero
    exact ⟨hrole.frames.same hrole.frames.mgr rfl hrole.frames.durable,
      hrole.admission.ungated rfl rfl (fun _ _ h => h) (fun _ _ _ h => { h with }),
      hrole.logged.keepDelta rfl le_rfl (fun _ h => h) rfl hrole.logged.unlogged nofun⟩

lemma engineInv_step (hguard : NoRestoreInTest s a) (hstep : engineStep root s a = some s') :
    EngineInv root base s' := by
  simp only [engineStep, or_eq_some_iff] at hstep
  rcases hstep with h | ⟨-, h | ⟨-, h | ⟨-, h | ⟨-, h⟩⟩⟩⟩
  · exact inv_gateStep inv h
  · exact inv_frameStep inv h
  · exact inv_logStep inv h
  · exact inv_entryStep inv hguard h
  · exact inv_testStep inv h

omit inv in
lemma engineInv_open {blobs : Blobs γ} {path : γ → List Byte} {allocated : List γ}
    (hrest : AtRest root blobs path allocated) (hparent : OneParent blobs) (n nextSeq : ℕ) :
    EngineInv root (lookupBlobs blobs root) (Engine.open blobs path allocated n nextSeq) := by
  have houtside : ∀ (i : ℕ) (r : Role),
      (Engine.open blobs path allocated n nextSeq).roles[i]? = some r → r = .outside :=
    fun i r h => (mem_replicate.mp (mem_of_getElem? h)).2
  have hroles : ∀ r ∈ (Engine.open blobs path allocated n nextSeq).roles, r = .outside :=
    fun r h => (mem_replicate.mp h).2
  have hlive : (Engine.open blobs path allocated n nextSeq).live = blobs := by
    funext g
    simp [Engine.live, Engine.open, Engine.Detached, Option.map_map, Function.comp_def]
  refine ⟨⟨Store.inv_resident blobs n, ?_, ?_, ?_, ?_, ?_, fun _ => rfl⟩, ⟨?_, ?_, ?_, ?_⟩,
    ⟨nodup_nil, nodup_nil, fun _ => rfl, by simp [Engine.open], by simp [Engine.open],
      by simp [Engine.open], by simp [Engine.open], ?_, ?_, ?_, by simp [Engine.open]⟩⟩
  · exact hlive.symm ▸ hrest.rooted
  · exact hlive.symm ▸ hparent
  · rw [hlive]
    rfl
  · intro g hg
    obtain ⟨blob, hb⟩ := ne_none_iff_exists'.mp hg
    obtain ⟨b, hb, -⟩ := map_eq_some_iff.mp hb
    exact hrest.known g b hb
  · rintro g (h | h)
    · simp [Engine.open] at h
    · simp [Engine.open] at h
  · intro i j k r hi
    exact absurd (houtside i _ hi) (by simp)
  · intro t g h
    exact absurd (mem_replicate.mp (mem_of_getElem? h)).2 (by simp)
  · simp [Engine.open]
  · intro t k h
    exact absurd (houtside t _ h) (by simp)
  · intro r hr d hd
    rw [hroles r hr] at hd
    simp [Role.staging] at hd
  · intro i j r r' d d' hi _ hd
    rw [houtside i r hi] at hd
    simp [Role.staging] at hd
  · intro r hr w hw
    rw [hroles r hr] at hw
    simp [Role.unlogged] at hw

/-- When all tests have passed, every blob of the tree is stored as it is cached. -/
lemma EngineInv.stored (hr : s.roles[t]? = some (.checkpoint 6)) (g : γ) (blob : Blob γ)
    (hg : s.live g = some blob) : s.durable g = some blob := by
  have htest := inv.admission.tested t 6 hr
  obtain ⟨hdet, c, hc, rfl⟩ := live_eq_some.mp hg
  rw [inv.frames.durable (htest.needsFlush le_rfl)]
  by_contra hne
  rcases inv.frames.mgr.coherent g c hdet hc hne with h | h | ⟨x, hx, hun⟩
  · exact h (htest.dirty (by omega) g)
  · rw [htest.flushing (by omega) g] at h
    exact lt_irrefl 0 h
  · -- a writer between its mutation and its `mark_dirty` would be inside the gate
    obtain ⟨i, hi⟩ := mem_iff_getElem?.mp hx
    cases x <;> simp [Store.Thread.unmarked] at hun
    obtain ⟨r, hri, hw⟩ := inv.admission.marking i _ hi
    exact absurd (inv.admission.alone.passed_eq_zero hri hw hr) (by simp)

/-- When all tests have passed, every logged write has been made. -/
lemma EngineInv.made (hr : s.roles[t]? = some (.checkpoint 6)) {record : List RecordWrite}
    (hrecord : record ∈ s.wal) {w : RecordWrite} (hw : w ∈ record) :
    Made s.applied w := by
  rcases inv.logged.covered record hrecord w hw with h | ⟨d, -, hin⟩
  · exact h
  · rcases hin with h | ⟨i, ops, hf, -⟩ | ⟨r, hrmem, h⟩
    · simp [(inv.admission.tested t 6 hr).delta (by omega)] at h
    · obtain ⟨r, hri, hwr⟩ := inv.admission.flusher i ops hf
      exact absurd (inv.admission.alone.passed_eq_zero hri hwr hr) nofun
    · obtain ⟨i, hi⟩ := mem_iff_getElem?.mp hrmem
      have hwr : r.writes = true := by
        cases r <;> simp_all [Role.staging, Role.writes]
      exact absurd (inv.admission.alone.passed_eq_zero hi hwr hr) nofun

/-! ## Truncation is safe -/

omit inv

/-- In every run in which no entry is restored during the first two reads of a test, at every
truncation: reading from the durable root gives exactly what the writes made so far give, and
every write of a dropped record has been made, or a later write of its key has. -/
theorem truncate_safe {blobs : Blobs γ} {path : γ → List Byte} {allocated : List γ}
    (hrest : AtRest root blobs path allocated) (hparent : OneParent blobs) {n nextSeq : ℕ}
    {as : List (EngineAction γ)}
    (hrun : Path (engineStep root) NoRestoreInTest
      (Engine.open blobs path allocated n nextSeq) as s)
    {t : ℕ} (htruncate : engineStep root s (.truncate t) = some s') :
    lookupBlobs s'.durable root = applyWrites (lookupBlobs blobs root) s.applied ∧
      ∀ record ∈ s.wal, ∀ w ∈ record, Made s.applied w := by
  have inv : EngineInv root (lookupBlobs blobs root) s :=
    hrun.invariant (fun _ _ _ hi hg hs => engineInv_step hi hg hs)
      (engineInv_open hrest hparent n nextSeq)
  simp only [engineStep, gateStep, frameStep, logStep, entryStep, testStep, none_or]
    at htruncate
  obtain ⟨hr, rfl⟩ := guard_eq_some.mp htruncate
  refine ⟨?_, fun record hrecord w hw => inv.made hr hrecord hw⟩
  rw [← inv.frames.contents]
  funext key
  exact congrFun (inv.frames.rooted.contents_of_subset (inv.stored hr)) (searchKey key)

end Runs

lemma twoBlobs_cases {g : ℕ} {blob : Blob ℕ} (h : twoBlobs g = some blob) :
    g = 0 ∧ blob = ⟨fun _ => none, [([98], 1)]⟩ ∨ g = 1 ∧ blob = ⟨fun _ => none, []⟩ := by
  unfold twoBlobs at h
  split_ifs at h with h0 h1
  · exact .inl ⟨h0, (Option.some.inj h).symm⟩
  · exact .inr ⟨h1, (Option.some.inj h).symm⟩

lemma atRest_twoBlobs : AtRest 0 twoBlobs twoPaths [0, 1] := by
  refine ⟨⟨⟨fun g blob hg => ?_, fun g blob hg p c hpc => ?_⟩, by simp [twoBlobs], rfl⟩,
    fun g blob hg => ?_, fun g blob k hg hk hnone => ?_, fun g blob key hg hrecord => ?_⟩
  · rcases twoBlobs_cases hg with ⟨rfl, rfl⟩ | ⟨rfl, rfl⟩
    · exact ⟨by simp [twoPaths], by simp [twoPaths], by simp [Apart]⟩
    · exact ⟨by simp, by simp, by simp [Apart]⟩
  · rcases twoBlobs_cases hg with ⟨rfl, rfl⟩ | ⟨rfl, rfl⟩
    · obtain ⟨-, rfl⟩ : p = [98] ∧ c = 1 := by simpa using hpc
      simp [twoBlobs]
    · simp at hpc
  · rcases twoBlobs_cases hg with ⟨rfl, rfl⟩ | ⟨rfl, rfl⟩ <;> simp
  · rcases twoBlobs_cases hg with ⟨rfl, rfl⟩ | ⟨rfl, rfl⟩
    · exact .here hg hnone
    · -- a word that starts with `b` goes from the root to the child
      have hb : [98].isPrefixOf k = true := isPrefixOf_iff_prefix.mpr hk
      exact .step (show twoBlobs 0 = some ⟨fun _ => none, [([98], 1)]⟩ from rfl)
        (by simp [Page.child?, List.find?, hb]) (.here hg hnone)
  · rcases twoBlobs_cases hg with ⟨rfl, rfl⟩ | ⟨rfl, rfl⟩ <;> exact absurd rfl hrecord

lemma oneParent_twoBlobs : OneParent twoBlobs := by
  intro g h pg pg' p q c hg hh hp hq
  rcases twoBlobs_cases hg with ⟨rfl, rfl⟩ | ⟨rfl, rfl⟩
  · rcases twoBlobs_cases hh with ⟨rfl, rfl⟩ | ⟨rfl, rfl⟩
    · rfl
    · simp at hq
  · simp at hp

/-- A write, a deferred write, and a round of thread 1 that flushes the delta, captures both
blobs and writes them through. -/
def quietCheckpoint : List (EngineAction ℕ) :=
  List.append (writeTo 1 [98] [1] 1)
  [.enterWriter 0, .submitStaged 0 [97] (some [2]), .stage 0, .leaveWriter 0,
    .enterCheckpoint 1, .beginFlush 1, .manager (.pinResident 1 0), .applyDelta 1,
    .markDirty 1 2, .manager (.unpin 1), .finishFlush 1, .drainDirty 1 1, .drainDirty 1 0,
    .readVersion 1 0, .readVersion 1 1, .leaveCheckpoint 1, .manager (.cloneBytes 0),
    .manager (.cloneBytes 1), .manager (.beginBatch [0, 1]), .manager (.checkCurrent 0),
    .manager (.writeBlob 0), .manager (.retire 0), .manager (.checkCurrent 1),
    .manager (.writeBlob 1), .manager (.retire 1), .manager .endBatch, .flushInner,
    .enterCheckpoint 1, .beginTest 1, .testDirty 1, .testFlushing 1, .testOrphanStaging 1,
    .testWriteDelta 1, .testNeedsFlush 1]

theorem truncate_safe_quietCheckpoint :
    ∃ s s' : Engine ℕ,
      exec (engineStep 0) (Engine.open twoBlobs twoPaths [0, 1] 2 1) quietCheckpoint = some s ∧
      engineStep 0 s (.truncate 1) = some s' ∧
      lookupBlobs s'.durable 0 = applyWrites (lookupBlobs twoBlobs 0) s.applied ∧
      ∀ record ∈ s.wal, ∀ w ∈ record, Made s.applied w := by
  obtain ⟨s, hexec, hrun, hend⟩ := path_of_guardedTo
    (show guardedTo (engineStep 0) NoRestoreInTest (fun s => (engineStep 0 s (.truncate 1)).isSome)
      (Engine.open twoBlobs twoPaths [0, 1] 2 1) quietCheckpoint = true by decide +kernel)
  obtain ⟨s', htruncate⟩ := isSome_iff_exists.mp hend
  exact ⟨s, s', hexec, htruncate,
    truncate_safe atRest_twoBlobs oneParent_twoBlobs hrun htruncate⟩

end Checkpoint
end Holt
