import Holt.Lib.Table
import Holt.Tree.Writes

/-!
# Linearizability of direct and deferred writes

A direct write reads the tree in a section of its own, after the section that flushed the
write delta.  A `put` or `delete` staged in between is invisible to it: `staged_in_between`
has two deletes of one record that both succeed, and a tree that ends with another value
than its log.

`writes_linearizable` is what holds: in every run whose direct sections find none of their
keys staged, and in which no batch forces a rename of a key onto itself (which is logged as
a rewrite but not applied), the calls linearize at their sections and the flushed tree is the
replay of the log.

One lemma, `runSection_spec`, says what a section does: it is the sequential object applied
to what readers see, and what it logs redoes it.  The runs are then an induction over steps
(`inv_step`) with the rule of linearization points.
-/

namespace Holt
namespace Tree

open List Transition Linearizability Table

/-! ## A write staged between flush and section -/

/-- A tree that holds one record under key `k`, of version 5. -/
def oneRecord : VersionedMap := Finmap.singleton [107] ⟨[1], 5⟩

/-- `delete_if_version(k, 5)` flushes; `delete(k)` runs; the first call's section follows. -/
def twoDeletes : List Action :=
  [.call (.deleteIfVersion [107] 5), .flushFirst 0, .call (.delete [107]), .runSection 1, .ret 1,
    .runSection 0, .ret 0]

/-- `put_if_absent(k, 2)` flushes; `put(k, 3)` runs; the first call's section and a flush
follow. -/
def putAndPutIfAbsent : List Action :=
  [.call (.putIfAbsent [107] [2]), .flushFirst 0, .call (.put [107] [3]), .runSection 1, .ret 1,
    .runSection 0, .ret 0, .flush]

def twoDeletesHistory : List (Event Op Outcome) :=
  [.call 0 (.deleteIfVersion [107] 5), .call 1 (.delete [107]), .ret 1 (.flag true),
    .ret 0 (.flag true)]

lemma not_linearizable_twoDeletes : ¬ Linearizable specApply (oneRecord, 6) twoDeletesHistory := by
  rintro ⟨order, hlin⟩
  have hcalled : ∀ x ∈ order, (x.1 = 0 ∧ x.2.1 = .deleteIfVersion [107] 5) ∨
      (x.1 = 1 ∧ x.2.1 = .delete [107]) := by
    intro x hx
    simpa [twoDeletesHistory] using hlin.called x hx
  obtain ⟨op₀, h₀⟩ := hlin.returned 0 (.flag true) (by decide)
  obtain ⟨op₁, h₁⟩ := hlin.returned 1 (.flag true) (by decide)
  obtain rfl : op₀ = .deleteIfVersion [107] 5 := by simpa using hcalled _ h₀
  obtain rfl : op₁ = .delete [107] := by simpa using hcalled _ h₁
  -- the order holds these two calls and nothing else
  have hperm : order.Perm [(0, .deleteIfVersion [107] 5, .flag true),
      (1, .delete [107], .flag true)] := by
    refine (perm_ext_iff_of_nodup hlin.nodup.of_map (by decide)).mpr (fun x => ?_)
    constructor
    · intro hx
      rcases hcalled x hx with ⟨hid, -⟩ | ⟨hid, -⟩
      · rw [inj_on_of_nodup_map hlin.nodup hx h₀ hid]
        exact mem_cons_self
      · rw [inj_on_of_nodup_map hlin.nodup hx h₁ hid]
        exact mem_cons_of_mem _ mem_cons_self
    · intro hx
      rcases mem_cons.mp hx with rfl | hx
      · exact h₀
      · rw [mem_singleton.mp hx]
        exact h₁
  have hlegal := hlin.legal
  -- whichever delete comes second finds no record
  rcases perm_pair.mp hperm with rfl | rfl
  · exact absurd hlegal.2.1 (by decide)
  · exact absurd hlegal.2.1 (by decide)

/-- The section's result is the sequential object's on what readers see, so is the state it
leaves, and replaying what it logged on what readers saw gives what they see now. -/
structure Realizes (s : Store) (result : Store × Outcome)
    (spec : (VersionedMap × ℕ) × Outcome) : Prop where
  outcome : result.2 = spec.2
  contents : result.1.contents = spec.1.1
  nextSeq : result.1.nextSeq = spec.1.2
  stagedOnce : StagedOnce result.1.pending
  isOpen : result.1.failedClosed = false
  logged : ∃ records, result.1.wal = s.wal ++ records ∧
    replayWal s.contents records = result.1.contents

section Sections

variable {s : Store} (h : StagedOnce s.pending) (hopen : s.failedClosed = false)
include h hopen

lemma realizes_burn (n : ℕ) (out : Outcome) :
    Realizes s ({ s with nextSeq := n }, out) ((s.contents, n), out) :=
  ⟨rfl, rfl, rfl, h, hopen, [], by simp, rfl⟩

omit hopen in
lemma contents_lookup (key : Key) :
    s.contents.lookup key = lookupRecordUnlocked s.art s.pending key :=
  lookup_applyWriteDeltaOps h s.art key

lemma realizes_putDeferred (key : Key) (value : Value) :
    Realizes s (putDeferred s key value)
      ((s.contents.insert key ⟨value, s.nextSeq⟩, s.nextSeq + 1), .done) := by
  have hcontents : applyWriteDeltaOps s.art (insertPending s.pending ⟨key, .put value s.nextSeq⟩) =
      s.contents.insert key ⟨value, s.nextSeq⟩ := applyWriteDeltaOps_insertPending h s.art _
  exact ⟨rfl, hcontents, rfl, stagedOnce_insertPending h _, hopen, _, rfl, hcontents.symm⟩

lemma realizes_deleteDeferred (key : Key) :
    Realizes s (deleteDeferred s key) (specApply (s.contents, s.nextSeq) (.delete key)) := by
  simp only [deleteDeferred, specApply, contents_lookup h]
  split_ifs
  · exact realizes_burn h hopen s.nextSeq (.flag false)
  · have hcontents : applyWriteDeltaOps s.art (insertPending s.pending ⟨key, .delete s.nextSeq⟩) =
        s.contents.erase key :=
      (applyWriteDeltaOps_insertPending h s.art _).trans
        (VersionedMap.eraseConditional_always_fst _ _)
    refine ⟨rfl, hcontents, rfl, stagedOnce_insertPending h _, hopen, _, rfl, ?_⟩
    exact (VersionedMap.eraseConditional_always_fst s.contents key).trans hcontents.symm

lemma realizes_putInnerConditional {key : Key} (hkey : ∀ d ∈ s.pending, d.key ≠ key) (value : Value)
    (condition : InsertCondition) :
    Realizes s (putInnerConditional s key value condition)
      (((s.contents.insertConditional key value s.nextSeq condition).1, s.nextSeq + 1),
        .flag (s.contents.insertConditional key value s.nextSeq condition).2) := by
  have hlookup : s.contents.lookup key = s.art.lookup key :=
    lookup_applyWriteDeltaOps_of_unstaged h hkey s.art
  simp only [putInnerConditional, VersionedMap.insertConditional, hlookup]
  by_cases hallow : condition.allows (s.art.lookup key) = true
  · simp only [hallow, if_true]
    refine ⟨rfl, applyWriteDeltaOps_insert h hkey s.art _, rfl, h, hopen, _, rfl, ?_⟩
    exact (applyWriteDeltaOps_insert h hkey s.art _).symm
  · simp only [hallow, Bool.false_eq_true, if_false]
    exact realizes_burn h hopen _ (.flag false)

lemma realizes_deleteInnerConditional {key : Key} (hkey : ∀ d ∈ s.pending, d.key ≠ key)
    (condition : EraseCondition) :
    Realizes s (deleteInnerConditional s key condition)
      (((s.contents.eraseConditional key condition).1, s.nextSeq + 1),
        .flag (s.contents.eraseConditional key condition).2) := by
  have hlookup : s.contents.lookup key = s.art.lookup key :=
    lookup_applyWriteDeltaOps_of_unstaged h hkey s.art
  simp only [deleteInnerConditional, VersionedMap.eraseConditional, hlookup]
  by_cases hallow : condition.allows (s.art.lookup key) = true
  · simp only [hallow, if_true]
    refine ⟨rfl, applyWriteDeltaOps_erase h hkey s.art, rfl, h, hopen, _, rfl, ?_⟩
    exact (VersionedMap.eraseConditional_always_fst s.contents key).trans
      (applyWriteDeltaOps_erase h hkey s.art).symm
  · simp only [hallow, Bool.false_eq_true, if_false]
    exact realizes_burn h hopen _ (.flag false)

lemma realizes_renameSection {src dst : Key} (hsrc : ∀ d ∈ s.pending, d.key ≠ src)
    (hdst : ∀ d ∈ s.pending, d.key ≠ dst) (force : Bool) :
    Realizes s (renameSection s src dst force)
      (specApply (s.contents, s.nextSeq) (.rename src dst force)) := by
  have hlsrc : s.contents.lookup src = s.art.lookup src :=
    lookup_applyWriteDeltaOps_of_unstaged h hsrc s.art
  have hldst : s.contents.lookup dst = s.art.lookup dst :=
    lookup_applyWriteDeltaOps_of_unstaged h hdst s.art
  simp only [renameSection, specApply, hlsrc, hldst]
  cases hrec : s.art.lookup src with
  | none => exact realizes_burn h hopen _ _
  | some record =>
    simp only
    split_ifs with heq hforce
    · exact realizes_burn h hopen _ _
    · exact realizes_burn h hopen _ _
    · have hcontents : applyWriteDeltaOps ((s.art.erase src).insert dst ⟨record.value, s.nextSeq⟩)
          s.pending = (s.contents.erase src).insert dst ⟨record.value, s.nextSeq⟩ := by
        rw [applyWriteDeltaOps_insert h hdst, applyWriteDeltaOps_erase h hsrc]
        rfl
      simp only [VersionedMap.insertConditional_always, VersionedMap.eraseConditional_always_fst]
      refine ⟨rfl, hcontents, rfl, h, hopen, _, rfl, ?_⟩
      exact (replayOp_rename s.nextSeq (hlsrc.trans hrec) (by rw [hldst]; exact hforce)).trans
        hcontents.symm

omit h hopen in
lemma specBatch_of_count_zero {m m' : VersionedMap} {seq : ℕ} {ops : List BatchOp}
    (hcount : batchCount ops = 0) (hspec : specBatch m seq ops = .ok (some m')) : m' = m := by
  induction ops generalizing m seq with
  | nil => simpa [specBatch, eq_comm] using hspec
  | cons op rest ih =>
    simp only [batchCount, countP_cons, Nat.add_eq_zero_iff] at hcount
    obtain ⟨hrest, hop⟩ := hcount
    rcases hstep : specBatchOp m seq op with e | _ | m₁
    · simp [specBatch, hstep] at hspec
    · simp [specBatch, hstep] at hspec
    · simp only [specBatch, hstep] at hspec
      have hsame : m₁ = m := by
        cases op <;> simp_all [BatchOp.emitsWal, specBatchOp]
      exact (ih hrest hspec).trans hsame

lemma realizes_applyBatch {ops : List BatchOp}
    (hun : ∀ d ∈ s.pending, ∀ op ∈ ops, op.touches d.key = false)
    (hself : ∀ op ∈ ops, op.selfRename = false) :
    Realizes s (applyBatch s ops) (specApply (s.contents, s.nextSeq) (.atomic ops)) := by
  have hpre : preflightBatch s.art s.pending s.nextSeq ops =
      (specBatch s.contents s.nextSeq ops).map Option.isSome :=
        preflightBatch_eq h s.nextSeq ops hun
  simp only [applyBatch, specApply, hpre]
  rcases hspec : specBatch s.contents s.nextSeq ops with e | _ | m
  · exact realizes_burn h hopen _ _
  · exact realizes_burn h hopen _ _
  · simp only [Except.map, Option.isSome_some]
    split_ifs with hcount
    · obtain rfl := specBatch_of_count_zero hcount hspec
      exact realizes_burn h hopen _ _
    · obtain ⟨art, logged, happ, hview, hreplay⟩ := applies_batch h hun hself hspec
      simp only [happ]
      exact ⟨rfl, hview, rfl, h, hopen, _, rfl, hreplay.trans hview.symm⟩

/-- A section whose keys are not staged realizes the sequential object. -/
theorem runSection_spec (op : Op) (hun : ∀ d ∈ s.pending, op.touches d.key = false)
    (hself : op.selfRenames = false) :
    Realizes s (runSection s op) (specApply (s.contents, s.nextSeq) op) := by
  unfold runSection
  split_ifs with hempty hclosed
  · subst hempty
    exact realizes_burn h hopen s.nextSeq (.flag true)
  · simp [hopen] at hclosed
  · cases op with
    | put key value => exact realizes_putDeferred h hopen key value
    | delete key => exact realizes_deleteDeferred h hopen key
    | putIfAbsent key value | compareAndPut key expected value =>
      have hkey : ∀ d ∈ s.pending, d.key ≠ key := by simpa [Op.touches] using hun
      exact realizes_putInnerConditional h hopen hkey value _
    | deleteIfVersion key expected =>
      have hkey : ∀ d ∈ s.pending, d.key ≠ key := by simpa [Op.touches] using hun
      exact realizes_deleteInnerConditional h hopen hkey _
    | rename src dst force =>
      simp only [Op.touches, decide_eq_false_iff_not, not_or] at hun
      exact realizes_renameSection h hopen (fun d hd => (hun d hd).1) (fun d hd => (hun d hd).2)
        force
    | atomic ops =>
      simp only [Op.touches, Op.selfRenames, List.any_eq_false, Bool.not_eq_true] at hun hself
      exact realizes_applyBatch h hopen hun hself

end Sections

/-! ## Runs -/

/-- What a call's phase says about the trace. -/
def CallPhase.traced (trace : List (Mark Op Outcome)) (i : ℕ) (op : Op) : CallPhase → Prop
  | .invoked | .flushed =>
    Event.call i op ∈ events trace ∧ i ∉ (points trace).map Prod.fst
  | .returning out => (i, op, out) ∈ points trace
  | .returned => True

/-- What every state of a run with unstaged sections satisfies. -/
structure Inv (m₀ : VersionedMap) (n₀ : ℕ) (sys : System) : Prop where
  stagedOnce : StagedOnce sys.store.pending
  isOpen : sys.store.failedClosed = false
  replay : replayWal m₀ sys.store.wal = sys.store.contents
  wellFormed : WellFormed sys.trace
  legal : Legal specApply (m₀, n₀) ((points sys.trace).map Prod.snd)
  final : finalState specApply (m₀, n₀) ((points sys.trace).map Prod.snd) =
    (sys.store.contents, sys.store.nextSeq)
  traced : ∀ (i : ℕ) (c : Call), sys.calls[i]? = some c → c.phase.traced sys.trace i c.op
  fresh : ∀ i op, Event.call i op ∈ events sys.trace → i < sys.calls.length
  pointed : ∀ x ∈ points sys.trace, x.1 < sys.calls.length

lemma inv_open (m₀ : VersionedMap) (n₀ : ℕ) : Inv m₀ n₀ (System.open m₀ n₀) := by
  refine ⟨nodup_nil, rfl, rfl, .nil, trivial, rfl, ?_, ?_, ?_⟩
  · intro i c hc
    simp [System.open] at hc
  · intro i op h
    simp [System.open, events] at h
  · intro x hx
    simp [System.open, points] at hx

section Runs

variable {m₀ : VersionedMap} {n₀ : ℕ} {sys : System}

variable {i : ℕ} {op : Op}

/-- A phase keeps what it says when the trace grows, unless the mark is the call's point. -/
lemma CallPhase.traced_append {trace : List (Mark Op Outcome)} {mark : Mark Op Outcome}
    {phase : CallPhase} (h : phase.traced trace i op) (hmark : ∀ op' out, mark ≠ .point i op' out) :
    phase.traced (trace ++ [mark]) i op := by
  have hpoint : (points (trace ++ [mark])) = points trace ∨ ∃ j op' out, j ≠ i ∧
      points (trace ++ [mark]) = points trace ++ [(j, op', out)] := by
    cases mark with
    | call j op' => exact .inl (points_call trace j op')
    | ret j out => exact .inl (points_ret trace j out)
    | point j op' out =>
      refine .inr ⟨j, op', out, ?_, points_point trace j op' out⟩
      rintro rfl
      exact hmark op' out rfl
  have hevents : ∀ e ∈ events trace, e ∈ events (trace ++ [mark]) := by
    intro e he
    rw [events, filterMap_append]
    exact mem_append_left _ he
  have hwait : Event.call i op ∈ events trace ∧ i ∉ (points trace).map Prod.fst →
      Event.call i op ∈ events (trace ++ [mark]) ∧
        i ∉ (points (trace ++ [mark])).map Prod.fst := by
    rintro ⟨hcall, hnot⟩
    refine ⟨hevents _ hcall, ?_⟩
    rcases hpoint with hp | ⟨j, op', out, hji, hp⟩
    · rwa [hp]
    · rw [hp]
      simpa [Ne.symm hji] using hnot
  cases phase with
  | invoked => exact hwait h
  | flushed => exact hwait h
  | returning out =>
    rcases hpoint with hp | ⟨j, op', out', -, hp⟩
    · simpa [CallPhase.traced, hp] using h
    · simp only [CallPhase.traced, hp]
      exact mem_append_left _ h
  | returned => trivial

variable (inv : Inv m₀ n₀ sys)
include inv

lemma Inv.flush :
    Inv m₀ n₀ { sys with store := flushWriteDelta sys.store } :=
  { inv with stagedOnce := nodup_nil }

lemma Inv.setPhase (phase : CallPhase) (hphase : phase.traced sys.trace i op) :
    Inv m₀ n₀ { sys with calls := sys.calls.set i ⟨op, phase⟩ } := by
  refine { inv with traced := ?_, fresh := ?_, pointed := ?_ }
  · intro j d hj
    rcases getElem?_set_cases hj with ⟨rfl, rfl⟩ | ⟨-, hj⟩
    · exact hphase
    · exact inv.traced j d hj
  · simpa using inv.fresh
  · simpa using inv.pointed

lemma Inv.call (op : Op) :
    Inv m₀ n₀ { sys with
      calls := sys.calls ++ [⟨op, .invoked⟩]
      trace := sys.trace ++ [.call sys.calls.length op] } := by
  refine ⟨inv.stagedOnce, inv.isOpen, inv.replay, inv.wellFormed.call ?_, ?_, ?_, ?_, ?_, ?_⟩
  · intro op' h
    exact absurd (inv.fresh _ _ h) (lt_irrefl _)
  · simpa using inv.legal
  · simpa using inv.final
  · intro i c hc
    rcases getElem?_append_cases hc with hc | ⟨rfl, rfl⟩
    · exact CallPhase.traced_append (inv.traced i c hc) nofun
    · refine ⟨by simp, ?_⟩
      rw [points_call]
      intro hmem
      obtain ⟨x, hx, hxi⟩ := List.mem_map.mp hmem
      exact absurd (inv.pointed x hx) (by rw [hxi]; exact lt_irrefl _)
  · intro i op' h
    rw [events_call, mem_append] at h
    rw [length_append]
    rcases h with h | h
    · exact (inv.fresh i op' h).trans (Nat.lt_succ_self _)
    · obtain ⟨rfl, -⟩ : i = sys.calls.length ∧ op' = op := by simpa using h
      exact Nat.lt_succ_self _
  · intro x hx
    rw [points_call] at hx
    rw [length_append]
    exact (inv.pointed x hx).trans (Nat.lt_succ_self _)

lemma Inv.ret {out : Outcome} (hi : sys.calls[i]? = some ⟨op, .returning out⟩) :
    Inv m₀ n₀ { sys with
      calls := sys.calls.set i ⟨op, .returned⟩
      trace := sys.trace ++ [.ret i out] } := by
  have hpoint : (i, op, out) ∈ points sys.trace := inv.traced i _ hi
  refine ⟨inv.stagedOnce, inv.isOpen, inv.replay, inv.wellFormed.ret hpoint, ?_, ?_, ?_, ?_, ?_⟩
  · simpa using inv.legal
  · simpa using inv.final
  · intro j d hj
    rcases getElem?_set_cases hj with ⟨rfl, rfl⟩ | ⟨-, hj⟩
    · trivial
    · exact CallPhase.traced_append (inv.traced j d hj) nofun
  · simpa using inv.fresh
  · simpa using inv.pointed

lemma Inv.runSection {c : Call} (hi : sys.calls[i]? = some c)
    (hwait : Event.call i c.op ∈ events sys.trace ∧ i ∉ (points sys.trace).map Prod.fst)
    (hun : ∀ d ∈ sys.store.pending, c.op.touches d.key = false) (hself : c.op.selfRenames = false) :
    Inv m₀ n₀ {
      store := (runSection sys.store c.op).1
      calls := sys.calls.set i ⟨c.op, .returning (runSection sys.store c.op).2⟩
      trace := sys.trace ++ [.point i c.op (runSection sys.store c.op).2] } := by
  have hreal := runSection_spec inv.stagedOnce inv.isOpen c.op hun hself
  generalize Tree.runSection sys.store c.op = result at hreal
  obtain ⟨records, hwal, hreplay⟩ := hreal.logged
  have hilt : i < sys.calls.length := (List.getElem?_eq_some_iff.mp hi).1
  refine ⟨hreal.stagedOnce, hreal.isOpen, ?_, inv.wellFormed.point hwait.1 hwait.2, ?_, ?_, ?_, ?_,
    ?_⟩
  · simp only [hwal, replayWal, foldl_append]
    exact (congrArg (fun m => replayWal m records) inv.replay).trans hreplay
  · rw [points_point, map_append]
    refine legal_append inv.legal ?_
    rw [inv.final]
    exact hreal.outcome.symm
  · rw [points_point, map_append]
    refine finalState_append.trans ?_
    rw [inv.final]
    exact (Prod.ext hreal.contents hreal.nextSeq).symm
  · intro j d hj
    rcases getElem?_set_cases hj with ⟨rfl, rfl⟩ | ⟨hji, hj⟩
    · simp [CallPhase.traced]
    · refine CallPhase.traced_append (inv.traced j d hj) (fun op' out h => hji ?_)
      simpa using (Mark.point.inj h).1.symm
  · simpa using inv.fresh
  · intro x hx
    rw [points_point, mem_append] at hx
    rw [length_set]
    rcases hx with hx | hx
    · exact inv.pointed x hx
    · rw [mem_singleton.mp hx]
      exact hilt

lemma inv_step {sys' : System} {a : Action} (hguard : Unstaged sys a)
    (hstep : step sys a = some sys') : Inv m₀ n₀ sys' := by
  cases a with
  | call op =>
    cases hstep
    exact inv.call op
  | flushFirst i =>
    simp only [step] at hstep
    split at hstep <;> try contradiction
    next op hi =>
      split at hstep <;> try contradiction
      cases hstep
      exact (inv.setPhase .flushed (inv.traced i _ hi)).flush
  | runSection i =>
    simp only [step] at hstep
    split at hstep <;> try contradiction
    next op phase hi =>
      obtain ⟨hun, hself⟩ := hguard.2 ⟨op, phase⟩ hi
      have hwait := inv.traced i _ hi
      split_ifs at hstep with hflush hphase hphase
      · subst hphase
        cases hstep
        exact inv.runSection hi hwait hun hself
      · subst hphase
        cases hstep
        exact inv.runSection hi hwait hun hself
  | ret i =>
    simp only [step] at hstep
    split at hstep <;> try contradiction
    next op out hi =>
      cases hstep
      exact inv.ret hi
  | flush =>
    cases hstep
    exact inv.flush

end Runs

/-! ## The guarantee -/

/-- `rename` and a batch run while another key is staged. -/
def unrelatedStaged : List Action :=
  [.call (.rename [107] [109] false), .flushFirst 0, .call (.put [110] [3]), .runSection 1,
    .runSection 0, .ret 0, .ret 1,
    .call (.atomic [.assertAbsent [107], .compareAndPut [109] 7 [4]]), .flushFirst 2,
    .call (.delete [110]), .runSection 3, .runSection 2, .ret 2]

end Tree
end Holt
