import Holt.Lib.GateProgram
import Holt.Tree.DeltaMaps
import Holt.Tree.SizedBatch
import Holt.Tree.Writes

/-!
# The gates of an atomic batch

Every operation on a tree runs inside gates: the maintenance gate, the tree's mutation gate and
the commit gate, in this order.  `Tree::apply_batch` flushes the write delta under gates of its
own, leaves them, and then enters the maintenance gate shared and the mutation gate exclusively
for its preflight and its commit.

The preflight of `AssertPrefixEmpty` over a non-empty overlay opens a key scan, and opening a
key scan flushes the write delta if it is not empty (`flush_write_deltas_if_needed` of
`engine/walker/range.rs`): it enters the maintenance gate and then the mutation gate, which the
batch itself holds.  `batch_never_blocks_itself_iff` says that this is the only way in which a
batch can come to wait for itself, and that a batch that does not can always move or waits for
another thread; `deferred_put_blocks_batch` is a run in which it happens.

The threads are programs of `Holt.Lib.GateProgram`.  What a thread does between gates is one
action on the store; a lookup reads the two halves of the write delta and then the tree, where
an operation in `pending` is later than one on the same key in `flushing`.
-/

namespace Holt
namespace Tree

open List GateProgram Transition

/-- The gates of a tree. -/
inductive GateName
  | maintenance
  | mutation
  | commit
deriving DecidableEq

/-- What the threads share, besides the gates. -/
structure GatedStore where
  art : VersionedMap
  delta : DeltaMaps
  nextSeq : ℕ
  failedClosed : Bool
deriving DecidableEq

/-- What a lookup finds staged. -/
def GatedStore.staged (store : GatedStore) : List DeltaOp :=
  (store.delta.pending ++ store.delta.flushing).map StagedOp.forget

/-- The work of a thread between two gate operations. -/
inductive GateAct
  | flushIfNeeded
  | flushDebtIfNeeded
  | beginFlush
  | finishFlush (ops : List StagedOp)
  | putDeferred (key : Key) (value : Value)
  | deleteDeferred (key : Key)
  | stage (op : StagedOp)
  | reserve (batch : List BatchOp)
  | preflight (batch : List BatchOp) (base : ℕ) (overlay : BatchOverlay) (seq : ℕ)
      (rest : List BatchOp)
  | scanPrefix (batch : List BatchOp) (base : ℕ) (overlay : BatchOverlay) (seq : ℕ) (pre : Key)
      (rest : List BatchOp)
  | commitBatch (batch : List BatchOp) (base : ℕ)

abbrev GateInstr := Instr GateName GateAct

abbrev GateThread := Thread GateName GateAct

abbrev GateState := State GateName GateAct GatedStore

section Programs

open Instr GateName

/-- `Gate::enter_exclusive` and `Gate::enter_batch`. -/
def enterExclusive (g : GateName) : List GateInstr := [setWrite g, drain g]

/-- The flush of `flush_write_delta_for_tree` and of `flush_write_deltas_if_needed`. -/
def flushSection : List GateInstr :=
  [enterShared maintenance] ++ enterExclusive mutation ++ [enterShared commit] ++
    [act .beginFlush] ++ [leaveShared commit, leaveExclusive mutation, leaveShared maintenance]

/-- The publish section of `commit_batch`; a batch of assertions has none. -/
def commitSection (batch : List BatchOp) (base : ℕ) : List GateInstr :=
  if batchCount batch = 0 then []
  else [enterShared commit, act (.commitBatch batch base), leaveShared commit]

/-- The effect of the work on the store, and what the thread does next. -/
def GateAct.run (store : GatedStore) : GateAct → GatedStore × List GateInstr
  | .flushIfNeeded => (store, if store.delta.treeLen = 0 then [] else flushSection)
  | .flushDebtIfNeeded =>
    (store, if writeDeltaFlushThreshold ≤ store.delta.treeLen then [act .flushIfNeeded] else [])
  | .beginFlush =>
    ({ store with delta := store.delta.beginFlushTree.2 },
      [act (.finishFlush store.delta.beginFlushTree.1)])
  | .finishFlush ops =>
    ({ store with
        art := applyWriteDeltaOps store.art (ops.map StagedOp.forget)
        delta := store.delta.finishFlush ops }, [])
  | .putDeferred key value =>
    if store.failedClosed then (store, [])
    else
      let createsKey := (lookupRecordUnlocked store.art store.staged key).isNone
      ({ store with nextSeq := store.nextSeq + 1 },
        [enterShared commit, act (.stage ⟨key, .put value store.nextSeq createsKey⟩),
          leaveShared commit])
  | .deleteDeferred key =>
    if store.failedClosed ∨ (lookupRecordUnlocked store.art store.staged key).isNone then
      (store, [])
    else
      ({ store with nextSeq := store.nextSeq + 1 },
        [enterShared commit, act (.stage ⟨key, .delete store.nextSeq⟩), leaveShared commit])
  | .stage op => ({ store with delta := store.delta.insertPending op }, [])
  | .reserve batch =>
    if store.failedClosed then (store, [])
    else
      ({ store with nextSeq := store.nextSeq + batchCount batch },
        if batchIsGuardFree batch then
          match preflightGuardFreeBatch batch with
          | .error _ => []
          | .ok () => commitSection batch store.nextSeq
        else [act (.preflight batch store.nextSeq ∅ store.nextSeq batch)])
  | .preflight batch base overlay seq rest =>
    (store, match rest with
      | [] => commitSection batch base
      | .assertPrefixEmpty pre :: rest =>
        if overlay.keys = ∅ then
          -- `prefix_exists_unlocked` does not flush
          if basePrefixEmpty store.art pre then [act (.preflight batch base overlay seq rest)]
          else []
        else if ∃ k ∈ overlay.keys, (overlay.lookup k).join.isSome ∧ pre.isPrefixOf k then []
        else [act .flushIfNeeded, act (.scanPrefix batch base overlay seq pre rest)]
      | op :: rest =>
        match preflightSizedOp store.art store.staged overlay seq op with
        | .error _ | .ok none => []
        | .ok (some overlay') => [act (.preflight batch base overlay' (op.nextSeq seq) rest)])
  | .scanPrefix batch base overlay seq pre rest =>
    (store,
      if ∀ k ∈ store.art.keys, pre.isPrefixOf k = true → overlay.lookup k = some none then
        [act (.preflight batch base overlay seq rest)]
      else [])
  | .commitBatch batch base =>
    match applyBatchWalkerInline store.art base batch with
    | (art, .ok _) => ({ store with art := art }, [])
    | (art, .error _) => ({ store with art := art, failedClosed := true }, [])

/-- The calls on a tree, and the passes of the background threads over it. -/
inductive GateRequest
  | put (key : Key) (value : Value)
  | delete (key : Key)
  | atomic (batch : List BatchOp)
  | scanKeys
  | snapshot
  | compactCandidate
  | mergeCandidate
  | mergePass
  | checkpointRound
  | checkpoint
deriving DecidableEq

/-- The body of a request inside the maintenance and the mutation gate, both shared. -/
def sharedSection (body : List GateInstr) : List GateInstr :=
  [enterShared maintenance, enterShared mutation] ++ body ++
    [leaveShared mutation, leaveShared maintenance]

/-- The capture of a checkpoint under the commit gate. -/
def captureSection : List GateInstr :=
  enterExclusive commit ++ [act .beginFlush, leaveExclusive commit]

/-- The gates of a request, in the order in which it enters and leaves them. -/
def GateRequest.program : GateRequest → List GateInstr
  | .put key value =>
    match validateInsertShape key value with
    | .error _ => []
    | .ok () => sharedSection [act (.putDeferred key value)] ++ [act .flushDebtIfNeeded]
  | .delete key => sharedSection [act (.deleteDeferred key)] ++ [act .flushDebtIfNeeded]
  | .atomic batch =>
    if batch = [] then []
    else
      [act .flushIfNeeded, enterShared maintenance] ++ enterExclusive mutation ++
        [act (.reserve batch), leaveExclusive mutation, leaveShared maintenance]
  | .scanKeys => act .flushIfNeeded :: sharedSection []
  | .snapshot => flushSection
  | .compactCandidate =>
    [enterShared maintenance] ++ enterExclusive mutation ++
      [enterShared commit, leaveShared commit, leaveExclusive mutation, leaveShared maintenance]
  | .mergeCandidate =>
    enterExclusive maintenance ++ enterExclusive mutation ++
      [enterShared commit, leaveShared commit, leaveExclusive mutation, leaveExclusive maintenance]
  | .mergePass =>
    enterExclusive maintenance ++
      [enterShared commit, leaveShared commit, leaveExclusive maintenance]
  | .checkpointRound =>
    [enterShared maintenance] ++ captureSection ++ [leaveShared maintenance]
  | .checkpoint =>
    enterExclusive maintenance ++ enterExclusive mutation ++ captureSection ++
      [leaveExclusive mutation, leaveExclusive maintenance]

end Programs

/-- One step of the threads of a tree. -/
abbrev gateStep : GateState → GateProgram.Action GateRequest → Option GateState :=
  GateProgram.step GateAct.run GateRequest.program

/-- A batch inside its gates that is about to enter one of them again. -/
def BlocksItself (t : GateThread) : Prop :=
  GateName.maintenance ∈ t.held.shared ∧ GateName.mutation ∈ t.held.exclusive ∧
    ∃ instr rest, t.todo = instr :: rest ∧
      (instr.enters = some .maintenance ∨ instr.enters = some .mutation)

/-- A flush that a thread makes inside its gates finds nothing to do. -/
def flushesOutside (s : GateState) : GateProgram.Action GateRequest → Bool
  | .call _ => true
  | .run i =>
    match s.threads[i]? with
    | some ⟨held, .act .flushIfNeeded :: _⟩ =>
      decide (GateName.maintenance ∈ held.shared → s.store.delta.treeLen = 0)
    | _ => true

/-! ## The programs are bracketed -/

/-- Where a thread may do its work: a batch in its gates, a flush there or outside all gates. -/
def GateAct.ready : GateAct → Held GateName → Prop
  | .flushIfNeeded, held =>
    held = Held.none ∨ (GateName.maintenance ∈ held.shared ∧ GateName.mutation ∈ held.exclusive)
  | .flushDebtIfNeeded, held => held = Held.none
  | .putDeferred _ _, held | .deleteDeferred _, held => GateName.commit ∉ held.all
  | .reserve _, held | .preflight _ _ _ _ _, held | .scanPrefix _ _ _ _ _ _, held =>
    (GateName.maintenance ∈ held.shared ∧ GateName.mutation ∈ held.exclusive) ∧
      GateName.commit ∉ held.all
  | _, _ => True

abbrev GateBracketed : Held GateName → List GateInstr → Prop := Bracketed GateAct.ready

lemma bracketed_program (r : GateRequest) : GateBracketed Held.none r.program := by
  cases r with
  | put key value =>
    simp only [GateRequest.program]
    split
    · rfl
    · simp [sharedSection, Bracketed, Held.none, Held.all, Held.owns, GateAct.ready]
  | atomic batch =>
    simp only [GateRequest.program]
    split_ifs
    · rfl
    · simp [enterExclusive, Bracketed, Held.none, Held.all, Held.owns, GateAct.ready]
  | delete | scanKeys | snapshot | compactCandidate | mergeCandidate | mergePass
  | checkpointRound | checkpoint =>
    simp [GateRequest.program, sharedSection, flushSection, captureSection, enterExclusive,
      Bracketed, Held.none, Held.all, Held.owns, GateAct.ready]

variable {held : Held GateName} {rest : List GateInstr}

lemma bracketed_publish (hcommit : GateName.commit ∉ held.all) (hrest : GateBracketed held rest)
    {a : GateAct} (ha : ∀ held, a.ready held) :
    GateBracketed held ([.enterShared .commit, .act a, .leaveShared .commit] ++ rest) := by
  refine ⟨hcommit, ha _, mem_cons_self, ?_⟩
  simpa using hrest

lemma bracketed_commitSection (hcommit : GateName.commit ∉ held.all)
    (hrest : GateBracketed held rest) (batch : List BatchOp) (base : ℕ) :
    GateBracketed held (commitSection batch base ++ rest) := by
  unfold commitSection
  split_ifs
  · exact hrest
  · exact bracketed_publish hcommit hrest fun _ => trivial

/-- What a thread does after its work leaves it bracketed, unless it flushes inside its gates. -/
lemma bracketed_run {store : GatedStore} {a : GateAct} (hready : a.ready held)
    (hflush : a = .flushIfNeeded → GateName.maintenance ∈ held.shared →
      store.delta.treeLen = 0) (hrest : GateBracketed held rest) :
    GateBracketed held ((a.run store).2 ++ rest) := by
  cases a with
  | flushIfNeeded =>
    simp only [GateAct.run]
    by_cases hempty : store.delta.treeLen = 0
    · simpa [hempty] using hrest
    · obtain rfl : held = Held.none :=
        hready.resolve_right fun h => hempty (hflush rfl h.1)
      simpa [hempty, flushSection, enterExclusive, Bracketed, Held.none, Held.all, Held.owns,
        GateAct.ready] using hrest
  | flushDebtIfNeeded =>
    simp only [GateAct.run]
    by_cases hdebt : writeDeltaFlushThreshold ≤ store.delta.treeLen
    · simpa [hdebt, Bracketed, GateAct.ready] using ⟨.inl hready, hrest⟩
    · simpa [hdebt] using hrest
  | beginFlush => exact ⟨trivial, hrest⟩
  | finishFlush ops => exact hrest
  | putDeferred key value | deleteDeferred key =>
    simp only [GateAct.run]
    split_ifs
    · exact hrest
    · exact bracketed_publish hready hrest fun _ => trivial
  | stage op => exact hrest
  | reserve batch =>
    simp only [GateAct.run]
    split_ifs with hclosed hfree
    · exact hrest
    · cases preflightGuardFreeBatch batch with
      | error e => exact hrest
      | ok u => exact bracketed_commitSection hready.2 hrest batch _
    · exact ⟨hready, hrest⟩
  | preflight batch base overlay seq ops =>
    simp only [GateAct.run]
    split
    · exact bracketed_commitSection hready.2 hrest batch base
    · split_ifs
      · exact ⟨hready, hrest⟩
      · exact hrest
      · exact hrest
      · exact ⟨.inr hready.1, hready, hrest⟩
    · split
      · exact hrest
      · exact hrest
      · exact ⟨hready, hrest⟩
  | scanPrefix batch base overlay seq pre ops =>
    simp only [GateAct.run]
    split_ifs
    · exact ⟨hready, hrest⟩
    · exact hrest
  | commitBatch batch base =>
    simp only [GateAct.run]
    split <;> exact hrest

/-- The condition under which no batch comes to wait for itself. -/
abbrev FlushesOutside (s : GateState) (a : GateProgram.Action GateRequest) : Prop :=
  flushesOutside s a = true

variable {s s' : GateState} {actions : List (GateProgram.Action GateRequest)}

/-- The threads of a run that keeps to the condition stay bracketed. -/
theorem bracketed_of_run (hrun : Path gateStep FlushesOutside s actions s')
    (hs : ∀ t ∈ s.threads, GateBracketed t.held t.todo) :
    ∀ t ∈ s'.threads, GateBracketed t.held t.todo := by
  refine forall_threads_of_run (P := fun t => GateBracketed t.held t.todo) bracketed_program ?_
    hrun hs
  intro s i held instr rest r hguard ht hbr hfire
  refine hbr.fire (fun a ha hready hrest => ?_) hfire
  subst ha
  refine bracketed_run hready (fun ha hmem => ?_) hrest
  subst ha
  simpa [FlushesOutside, flushesOutside, ht, hmem] using hguard

lemma bracketed_initial (store : GatedStore) :
    ∀ t ∈ (State.initial store : GateState).threads, GateBracketed t.held t.todo := by
  simp [State.initial]

variable {t : GateThread}

lemma not_blocksItself (ht : GateBracketed t.held t.todo) : ¬ BlocksItself t := by
  obtain ⟨held, todo⟩ := t
  rintro ⟨hmaint, hmut, instr, rest, rfl, henters⟩
  rcases henters with henters | henters
  · exact ht.enters henters (mem_append_left _ hmaint)
  · exact ht.enters henters (mem_append_right _ (mem_append_right _ hmut))

/-- A flush inside the gates that finds something to do makes the batch block itself. -/
lemma blocksItself_of_flush {a : GateProgram.Action GateRequest}
    (hs : ∀ t ∈ s.threads, GateBracketed t.held t.todo) (hflush : ¬ FlushesOutside s a)
    (hstep : gateStep s a = some s') : ∃ t ∈ s'.threads, BlocksItself t := by
  cases a with
  | call r => exact absurd rfl hflush
  | run i =>
    obtain ⟨held, instr, rest, r, ht, hfire, rfl⟩ := step_run_inv hstep
    simp only [FlushesOutside, flushesOutside, ht] at hflush
    split at hflush
    · rename_i held' rest' heq
      obtain ⟨rfl, rfl, rfl⟩ : held' = held ∧ Instr.act .flushIfNeeded = instr ∧ rest' = rest := by
        simpa using heq.symm
      simp only [decide_eq_true_eq, Classical.not_imp] at hflush
      obtain ⟨hmaint, hlen⟩ := hflush
      have hbr := hs _ (mem_of_getElem? ht)
      -- the flush is not one made outside the gates
      have hgates : GateName.mutation ∈ held'.exclusive := by
        rcases hbr.1 with hnone | hgates
        · obtain rfl : held' = Held.none := hnone
          simp [Held.none] at hmaint
        · exact hgates.2
      cases hfire
      refine ⟨_, mem_of_getElem? (getElem?_set_self
        (List.getElem?_eq_some_iff.mp ht).1), hmaint, hgates, .enterShared .maintenance, ?_⟩
      simp [GateAct.run, hlen, flushSection, Instr.enters]
    · exact absurd rfl hflush

/-- A run in which no batch blocks itself keeps to the condition. -/
lemma path_of_not_blocksItself (hs : ∀ t ∈ s.threads, GateBracketed t.held t.todo)
    (hrun : FreePath gateStep s actions s')
    (hfree : ∀ before after u, actions = before ++ after → FreePath gateStep s before u →
      ∀ t ∈ u.threads, ¬ BlocksItself t) :
    Path gateStep FlushesOutside s actions s' := by
  induction hrun with
  | nil s => exact .nil s
  | @cons s u _ a rest _ hstep _ ih =>
    have hflush : FlushesOutside s a := by
      by_contra hflush
      obtain ⟨t, ht, hblocks⟩ := blocksItself_of_flush hs hflush hstep
      exact hfree [a] rest u rfl (.cons trivial hstep (.nil u)) t ht hblocks
    have hu := bracketed_of_run (.cons hflush hstep (.nil u)) hs
    refine .cons hflush hstep (ih hu fun before after v heq hv => ?_)
    exact hfree (a :: before) after v (by rw [heq]; rfl) (.cons trivial hstep hv)

/-! ## The threads end -/

/-- A bound on the instructions a piece of work leads to. -/
def GateAct.fuel : GateAct → ℕ
  | .flushIfNeeded => 9
  | .flushDebtIfNeeded => 10
  | .beginFlush => 1
  | .putDeferred _ _ | .deleteDeferred _ => 3
  | .reserve batch => 12 * batch.length + 4
  | .preflight _ _ _ _ rest => 12 * rest.length + 3
  | .scanPrefix _ _ _ _ _ rest => 12 * rest.length + 4
  | .finishFlush _ | .stage _ | .commitBatch _ _ => 0

lemma weight_commitSection (batch : List BatchOp) (base : ℕ) :
    weight GateAct.fuel (commitSection batch base) ≤ 3 := by
  unfold commitSection
  split_ifs <;> simp [weight, GateAct.fuel]

lemma weight_run (store : GatedStore) (a : GateAct) :
    weight GateAct.fuel (a.run store).2 ≤ a.fuel := by
  cases a with
  | flushIfNeeded =>
    simp only [GateAct.run]
    split_ifs <;> simp [weight, GateAct.fuel, flushSection, enterExclusive]
  | flushDebtIfNeeded | putDeferred key value | deleteDeferred key =>
    simp only [GateAct.run]
    split_ifs <;> simp [weight, GateAct.fuel]
  | beginFlush | finishFlush | stage => simp [GateAct.run, weight, GateAct.fuel]
  | reserve batch =>
    have hcommit := weight_commitSection batch store.nextSeq
    simp only [GateAct.run, GateAct.fuel]
    split_ifs
    · simp [weight]
    · cases preflightGuardFreeBatch batch with
      | error e => simp [weight]
      | ok u =>
        simp only
        omega
    · simp only [weight, GateAct.fuel]
      omega
  | preflight batch base overlay seq rest =>
    have hcommit := weight_commitSection batch base
    simp only [GateAct.run, GateAct.fuel]
    split
    · simpa using hcommit
    · simp only [length_cons]
      split_ifs <;> simp only [weight, GateAct.fuel] <;> omega
    · simp only [length_cons]
      split <;> simp only [weight, GateAct.fuel] <;> omega
  | scanPrefix batch base overlay seq pre rest =>
    simp only [GateAct.run, GateAct.fuel]
    split_ifs <;> simp only [weight, GateAct.fuel] <;> omega
  | commitBatch batch base =>
    simp only [GateAct.run]
    split <;> simp [weight, GateAct.fuel]

/-- How a thread that is in a gate stands: it can move, or it waits for a gate that another
thread is in, and every move brings it nearer to its end. -/
def Progresses (s : GateState) (i : ℕ) (t : GateThread) : Prop :=
  ((∃ s', gateStep s (.run i) = some s') ∨
      ∃ instr rest g k u, t.todo = instr :: rest ∧
        (instr.enters = some g ∨ instr = .drain g) ∧ k ≠ i ∧ s.threads[k]? = some u ∧
        g ∈ u.held.all) ∧
    ∀ s', gateStep s (.run i) = some s' → ∃ t', s'.threads[i]? = some t' ∧
      weight GateAct.fuel t'.todo < weight GateAct.fuel t.todo

/-- The next step of a thread lowers what it has left to do. -/
lemma weight_step {i : ℕ} (ht : s.threads[i]? = some t) (hstep : gateStep s (.run i) = some s') :
    ∃ t', s'.threads[i]? = some t' ∧
      weight GateAct.fuel t'.todo < weight GateAct.fuel t.todo := by
  obtain ⟨held, instr, rest, r, ht', hfire, rfl⟩ := step_run_inv hstep
  cases ht'.symm.trans ht
  exact ⟨r.2.2, getElem?_set_self (List.getElem?_eq_some_iff.mp ht).1,
    weight_lt weight_run hfire⟩

lemma progresses_of_bracketed (hs : Admitted s) {i : ℕ} (ht : s.threads[i]? = some t)
    (hbr : GateBracketed t.held t.todo) (hin : t.held ≠ Held.none) : Progresses s i t := by
  refine ⟨?_, fun s' hstep => weight_step ht hstep⟩
  obtain ⟨held, todo⟩ := t
  cases todo with
  | nil => exact absurd hbr hin
  | cons instr rest =>
    rcases hs.moves_or_waits ht hbr with hmoves | ⟨g, k, u, hwaits, hne, hu, hg⟩
    · exact .inl hmoves
    · exact .inr ⟨instr, rest, g, k, u, rfl, hwaits, hne, hu, hg⟩

/-- In a run of any requests on a tree, no batch that is in its gates comes to enter one of
them again exactly when every flush that a thread makes inside its gates finds nothing staged;
and then a thread that is in a gate can always move or waits for another thread, and ends
after finitely many moves. -/
theorem batch_never_blocks_itself_iff (store : GatedStore)
    (hrun : FreePath gateStep (State.initial store) actions s) :
    ((∀ before after u, actions = before ++ after →
        FreePath gateStep (State.initial store) before u → ∀ t ∈ u.threads, ¬ BlocksItself t) ↔
      Path gateStep FlushesOutside (State.initial store) actions s) ∧
    (Path gateStep FlushesOutside (State.initial store) actions s →
      ∀ i t, s.threads[i]? = some t → t.held ≠ Held.none → Progresses s i t) := by
  refine ⟨⟨path_of_not_blocksItself (bracketed_initial store) hrun, ?_⟩, ?_⟩
  · rintro hpath before after u rfl hu t ht
    exact not_blocksItself
      (bracketed_of_run (hpath.of_append hu) (bracketed_initial store) t ht)
  · intro hpath i t ht hin
    have hadmitted : Admitted s :=
      hrun.invariant (fun _ _ _ hs _ hstep => hs.step hstep) (admitted_initial store)
    exact progresses_of_bracketed hadmitted ht
      (bracketed_of_run hpath (bracketed_initial store) t (mem_of_getElem? ht)) hin

/-- A put that was staged before the batch entered its gates: the batch flushes first, finds
nothing, and then meets the staged put in the scan for its prefix assertion. -/
def stagedPutRun : List (GateProgram.Action GateRequest) :=
  [.call (.atomic [.put [98] [], .assertPrefixEmpty [97]]), .run 0, .call (.put [97] [1])] ++
    List.replicate 8 (.run 1) ++ List.replicate 8 (.run 0)

def emptyGatedStore : GatedStore := ⟨∅, DeltaMaps.empty, 1, false⟩

/-- The thread has claimed the mutation gate and is about to claim it once more. -/
def claimsMutationTwice (t : GateThread) : Bool :=
  decide (GateName.maintenance ∈ t.held.shared) && decide (GateName.mutation ∈ t.held.exclusive) &&
    match t.todo with
    | .setWrite .mutation :: _ => true
    | _ => false

lemma claimsMutationTwice_inv (h : claimsMutationTwice t = true) :
    GateName.maintenance ∈ t.held.shared ∧ GateName.mutation ∈ t.held.exclusive ∧
      ∃ rest, t.todo = .setWrite .mutation :: rest := by
  obtain ⟨held, todo⟩ := t
  simp only [claimsMutationTwice, Bool.and_eq_true, decide_eq_true_eq] at h
  obtain ⟨⟨hmaint, hmut⟩, htodo⟩ := h
  split at htodo
  · exact ⟨hmaint, hmut, _, rfl⟩
  · cases htodo

/-- A deferred put between the flush and the gates of a batch leaves the batch waiting for the
mutation gate it holds, and it stays there whatever the other threads do. -/
theorem deferred_put_blocks_batch :
    ∃ s t, FreePath gateStep (State.initial emptyGatedStore) stagedPutRun s ∧
      s.threads[0]? = some t ∧ BlocksItself t ∧
      ∀ actions s', FreePath gateStep s actions s' → s'.threads[0]? = some t := by
  have hcheck : (exec gateStep (State.initial emptyGatedStore) stagedPutRun).any
      (fun s => s.threads[0]?.any claimsMutationTwice) = true := by decide +kernel
  obtain ⟨s, hexec, hany⟩ := exists_of_exec_any hcheck
  obtain ⟨t, ht, hclaims⟩ := (Option.any_eq_true _ _).mp hany
  obtain ⟨hmaint, hmut, rest, htodo⟩ := claimsMutationTwice_inv hclaims
  have hrun := freePath_of_exec hexec
  have hadmitted : Admitted s :=
    hrun.invariant (fun _ _ _ hs _ hstep => hs.step hstep) (admitted_initial emptyGatedStore)
  have hwaits : t.WaitsForItself :=
    ⟨.mutation, .setWrite .mutation, rest, htodo, rfl, mem_append_right _ hmut⟩
  exact ⟨s, t, hrun, ht, ⟨hmaint, hmut, _, rest, htodo, .inr rfl⟩,
    fun actions s' h => hadmitted.stays ht hwaits h⟩

/-- The same requests, with the put after the batch: the condition holds along the run. -/
def laterPutRun : List (GateProgram.Action GateRequest) :=
  [.call (.atomic [.put [98] [], .assertPrefixEmpty [97]]), .call (.put [97] [1])] ++
    List.replicate 15 (.run 0) ++ List.replicate 9 (.run 1)

theorem batch_never_blocks_itself_laterPut :
    ∃ s, FreePath gateStep (State.initial emptyGatedStore) laterPutRun s ∧
      ∀ before after u, laterPutRun = before ++ after →
        FreePath gateStep (State.initial emptyGatedStore) before u →
        ∀ t ∈ u.threads, ¬ BlocksItself t := by
  obtain ⟨s, hexec, hpath, -⟩ := path_of_guardedTo
    (show guardedTo gateStep FlushesOutside (fun _ => True) (State.initial emptyGatedStore)
      laterPutRun = true by decide +kernel)
  have hrun := freePath_of_exec hexec
  exact ⟨s, hrun, (batch_never_blocks_itself_iff emptyGatedStore hrun).1.mpr hpath⟩

end Tree
end Holt
