import Holt.Db.ViewGates

/-!
# Views are consistent cuts

Every view of a DB sees all the operations of a DB batch on the trees it lists, or none, and no
set of threads waits in a circle, as long as the keys have no zero byte, so that no operation of
a DB batch collides with a key of its tree, and no batch on a single tree finds staged writes
when its preflight scans keys (`views_are_cuts`).

The invariant says what a thread has been promised by the time it does its next piece of work.
A view and a DB batch have the mutation gates of their trees to themselves, and nothing is staged
on these trees once they have been flushed, so no flush of another thread touches them either.  A
batch that has passed its preflight is then still specified on the records it finds, operation by
operation, and the roots a view has copied are still those of the trees when it has copied the
last.
-/

namespace Holt
namespace Db
namespace Views

open List GateProgram Transition Holt.Tree

/-! ## What is done to the trees -/

/-- The operations of one tree with their numbers. -/
def numbered : ℕ → List BatchOp → List (ℕ × BatchOp)
  | _, [] => []
  | seq, op :: ops => (seq, op) :: numbered (op.nextSeq seq) ops

/-- The operations of a batch on a tree, with their numbers. -/
def opsOn (tree : ℕ) : Groups → ℕ → List (ℕ × BatchOp)
  | [], _ => []
  | (t, ops) :: rest, seq =>
    (if t = tree then numbered seq ops else []) ++ opsOn tree rest (seq + batchCount ops)

/-- What has been done to a tree on behalf of a DB batch. -/
def effects (id : ℕ) (made : List Made) : List (ℕ × BatchOp) :=
  (made.filter (fun e => e.batch = some id)).map (fun e => (e.seq, e.op))

@[simp] lemma effects_append (id : ℕ) (made more : List Made) :
    effects id (made ++ more) = effects id made ++ effects id more := by
  simp [effects]

variable {id : ℕ}

lemma effects_eq_nil {made : List Made} (h : ∀ e ∈ made, e.batch ≠ some id) :
    effects id made = [] := by
  simpa [effects] using h

variable {tree : ℕ} {groups : Groups}

/-- A batch has no operations on other trees. -/
lemma opsOn_of_notMem (h : tree ∉ batchTrees groups) (seq : ℕ) : opsOn tree groups seq = [] := by
  induction groups generalizing seq with
  | nil => rfl
  | cons g rest ih =>
    obtain ⟨t, ops⟩ := g
    simp only [batchTrees, map_cons, mem_cons, not_or] at h
    rw [opsOn, if_neg (Ne.symm h.1), ih h.2]
    rfl

lemma opsOn_cons_op (tree t seq : ℕ) (op : BatchOp) (ops : List BatchOp) (rest : Groups) :
    opsOn tree ((t, op :: ops) :: rest) seq =
      (if t = tree then [(seq, op)] else []) ++
        opsOn tree ((t, ops) :: rest) (op.nextSeq seq) := by
  simp only [opsOn, numbered, nextSeq_add_batchCount]
  by_cases h : t = tree
  · simp [h]
  · simp [h]

lemma replayMade_append (art : VersionedMap) (made more : List Made) :
    replayMade art (made ++ more) = replayMade (replayMade art made) more :=
  foldl_append ..

lemma applyDeltaOp_eq (art : VersionedMap) (d : DeltaOp) :
    applyDeltaOp art d = (applyBatchOp art (stagedMade d).seq (stagedMade d).op).1 := by
  obtain ⟨key, entry⟩ := d
  cases entry with
  | put value seq => rfl
  | delete seq => rfl

/-- To replay what was staged is to flush it. -/
lemma replayMade_staged (art : VersionedMap) (pending : List DeltaOp) :
    replayMade art (pending.map stagedMade) = applyWriteDeltaOps art pending := by
  induction pending generalizing art with
  | nil => rfl
  | cons d pending ih =>
    rw [map_cons, replayMade, foldl_cons, ← applyDeltaOp_eq]
    exact ih _

lemma stagedMade_batch (d : DeltaOp) : (stagedMade d).batch = none := by
  obtain ⟨key, entry⟩ := d
  cases entry with
  | put value seq => rfl
  | delete seq => rfl

variable {t : TreeState}

lemma flush_of_nil (h : t.pending = []) : t.flush = t := by
  obtain ⟨art, pending, made⟩ := t
  obtain rfl : pending = [] := h
  simp [TreeState.flush, applyWriteDeltaOps]

/-- What happens to a tree: its records are those that what has been done to it makes, and what
is done on behalf of a DB batch is known. -/
structure Grown (batch : Option ℕ) (t t' : TreeState) : Prop where
  exists_more : ∃ more, t'.made = t.made ++ more ∧ t'.art = replayMade t.art more ∧
    ∀ e ∈ more, e.batch = none ∨ e.batch = batch

lemma grown_refl (batch : Option ℕ) (t : TreeState) : Grown batch t t :=
  ⟨[], by simp, rfl, by simp⟩

lemma grown_flush (batch : Option ℕ) (t : TreeState) : Grown batch t t.flush := by
  refine ⟨t.pending.map stagedMade, rfl, (replayMade_staged _ _).symm, fun e he => ?_⟩
  obtain ⟨d, -, rfl⟩ := List.mem_map.mp he
  exact .inl (stagedMade_batch d)

/-- A rename that collides leaves the removal of its source. -/
lemma grown_apply (batch : Option ℕ) (t : TreeState) (seq : ℕ) (op : BatchOp) :
    Grown batch t (t.apply batch seq op).1 := by
  unfold TreeState.apply
  by_cases hc : collides t.art op = true
  · rw [if_pos hc]
    cases op with
    | rename src dst force =>
      exact ⟨[⟨batch, seq, .delete src⟩], rfl, rfl, by simp⟩
    | _ => exact grown_refl batch t
  · rw [if_neg hc]
    exact ⟨[⟨batch, seq, op⟩], rfl, rfl, by simp⟩

/-- The DB batch on whose behalf a thread works. -/
def DbAct.batch : DbAct → Option ℕ
  | .apply batch _ _ => batch
  | _ => none

lemma trees_setTree (store : DbStore) (tree tree' : ℕ) (t : TreeState) :
    (setTree store tree t).trees tree' = if tree' = tree then t else store.trees tree' := by
  by_cases h : tree' = tree
  · subst h
    simp [setTree]
  · simp [setTree, h]

/-- What a piece of work does to a tree: nothing, a flush, or what its thread is there for. -/
lemma run_trees_cases (store : DbStore) (a : DbAct) (tree : ℕ) :
    (a.run store).1.trees tree = store.trees tree ∨
      (a.run store).1.trees tree = (store.trees tree).flush ∨
      (∃ op, a = .stage tree op ∧ (a.run store).1.trees tree =
        { store.trees tree with pending := insertPending (store.trees tree).pending op }) ∨
      ∃ batch op ops rest seq, a = .apply batch ((tree, op :: ops) :: rest) seq ∧
        (a.run store).1.trees tree = ((store.trees tree).apply batch seq op).1 := by
  cases a with
  | flush trees | flushFrozen trees =>
    simp only [DbAct.run]
    by_cases hmem : tree ∈ trees
    · rw [if_pos hmem]
      exact .inr (.inl rfl)
    · rw [if_neg hmem]
      exact .inl rfl
  | flushAll => exact .inr (.inl rfl)
  | putDeferred t key value | deleteDeferred t key =>
    simp only [DbAct.run]
    split
    · exact .inl rfl
    · exact .inl rfl
  | stage t op =>
    by_cases heq : tree = t
    · subst heq
      exact .inr (.inr (.inl ⟨op, rfl, (trees_setTree ..).trans (if_pos rfl)⟩))
    · exact .inl ((trees_setTree ..).trans (if_neg heq))
  | capture todo roots =>
    cases todo with
    | nil | cons t todo => exact .inl rfl
  | begin db groups base =>
    cases db with
    | false | true => exact .inl rfl
  | apply batch groups seq =>
    match groups with
    | [] => exact .inl rfl
    | (_, []) :: _ => exact .inl rfl
    | (t, op :: ops) :: rest =>
      have htrees : ((DbAct.apply batch ((t, op :: ops) :: rest) seq).run store).1.trees =
          (setTree store t ((store.trees t).apply batch seq op).1).trees := by
        simp only [DbAct.run]
        split
        · rfl
        · rfl
      rw [htrees]
      by_cases heq : tree = t
      · subst heq
        exact .inr (.inr (.inr
          ⟨batch, op, ops, rest, seq, rfl, (trees_setTree ..).trans (if_pos rfl)⟩))
      · exact .inl ((trees_setTree ..).trans (if_neg heq))
  | flushIfNeeded | enterBatch | preflight => exact .inl rfl

/-- Every piece of work only adds to what has been done to a tree. -/
lemma grown_run (store : DbStore) (a : DbAct) (tree : ℕ) :
    Grown a.batch (store.trees tree) ((a.run store).1.trees tree) := by
  rcases run_trees_cases store a tree with h | h | ⟨op, rfl, h⟩ |
    ⟨batch, op, ops, rest, seq, rfl, h⟩
  · exact h ▸ grown_refl _ _
  · exact h ▸ grown_flush _ _
  · exact h ▸ ⟨[], by simp, rfl, by simp⟩
  · exact h ▸ grown_apply batch _ seq op

/-- Work for another batch, or for none, does not count for this one. -/
lemma Grown.effects_eq {batch : Option ℕ} {t' : TreeState} (h : Grown batch t t')
    (hne : batch ≠ some id) : effects id t'.made = effects id t.made := by
  obtain ⟨more, hmade, -, hbatch⟩ := h.exists_more
  have hnil : effects id more = [] := by
    refine effects_eq_nil fun e he heq => ?_
    rcases hbatch e he with hnone | hsame
    · simp [hnone] at heq
    · exact hne (hsame.symm.trans heq)
  rw [hmade, effects_append, hnil, append_nil]

variable {store : DbStore} {a : DbAct} {held : Held DbGate}

/-- A tree that another thread has to itself, and on which nothing is staged, stays as it is. -/
lemma run_trees_frame (hready : a.ready held) (hnot : DbGate.mutation tree ∉ held.all)
    (hpending : (store.trees tree).pending = []) :
    (a.run store).1.trees tree = store.trees tree := by
  rcases run_trees_cases store a tree with h | h | ⟨op, rfl, h⟩ |
    ⟨batch, op, ops, rest, seq, rfl, h⟩
  · exact h
  · exact h.trans (flush_of_nil hpending)
  · exact absurd (mem_append_left _ hready) hnot
  · exact absurd (mem_append_right _ (mem_append_right _
      (hready tree (by simp [batchTrees])))) hnot

/-! ## What a thread has been promised -/

/-- A batch is specified on the records of its trees. -/
def Passed (store : DbStore) : Groups → ℕ → Prop
  | [], _ => True
  | (tree, ops) :: rest, base =>
    (∃ m, specBatch (store.trees tree).art base ops = .ok (some m)) ∧
      Passed store rest (base + batchCount ops)

/-- The trees that stay as they are until a thread does a piece of work. -/
def DbAct.frozen : DbAct → List ℕ
  | .capture todo roots => todo ++ roots.map Root.tree
  | .preflight true groups _ | .begin true groups _ | .apply (some _) groups _ => batchTrees groups
  | _ => []

/-- A DB batch has been applied up to the given operations. -/
def AppliedUpTo (store : DbStore) (held : Held DbGate) (id : ℕ) (groups : Groups) (seq : ℕ) :
    Prop :=
  ∃ batch, store.batches[id]? = some batch ∧
    (∀ tree, effects id (store.trees tree).made ++ opsOn tree groups seq =
      opsOn tree batch.groups batch.base) ∧
    ∀ tree ∈ batchTrees batch.groups, DbGate.mutation tree ∈ held.exclusive

/-- What holds when a thread comes to a piece of work, beside that its trees are frozen. -/
def DbAct.Holds (store : DbStore) (held : Held DbGate) : DbAct → Prop
  | .capture _ roots =>
    ∀ r ∈ roots, r = ⟨r.tree, (store.trees r.tree).art, (store.trees r.tree).made⟩
  | .enterBatch true groups _ | .preflight true groups _ => (batchTrees groups).Nodup
  | .begin true groups base => (batchTrees groups).Nodup ∧ Passed store groups base
  | .apply (some id) groups seq =>
    ((batchTrees groups).Nodup ∧ Passed store groups seq) ∧ AppliedUpTo store held id groups seq
  | _ => True

/-- What is promised to a thread for its next piece of work. -/
def DbAct.Promised (store : DbStore) (held : Held DbGate) (a : DbAct) : Prop :=
  (∀ tree ∈ a.frozen, DbGate.mutation tree ∈ held.exclusive ∧ (store.trees tree).pending = []) ∧
    a.Holds store held

/-- The next piece of work of a thread. -/
def firstAct : List DbInstr → Option DbAct
  | [] => none
  | .act a :: _ => some a
  | _ :: rest => firstAct rest

def Promise (store : DbStore) (held : Held DbGate) (todo : List DbInstr) : Prop :=
  ∀ a, firstAct todo = some a → a.Promised store held

/-- The next piece of work needs no promise. -/
def Calm (todo : List DbInstr) : Prop :=
  ∀ a, firstAct todo = some a → a.frozen = [] ∧ ∀ store held, a.Holds store held

/-- Work that needs its trees frozen comes right after they have been flushed. -/
def Prepared : List DbInstr → Prop
  | [] => True
  | .act (.flushFrozen trees) :: rest =>
    (∀ a, firstAct rest = some a →
      (∀ tree ∈ a.frozen, tree ∈ trees) ∧ ∀ store held, a.Holds store held) ∧ Prepared rest
  | .act _ :: rest | .leaveExclusive _ :: rest => Calm rest ∧ Prepared rest
  | .enterShared _ :: rest | .setWrite _ :: rest | .drain _ :: rest | .leaveShared _ :: rest =>
    Prepared rest

variable {todo : List DbInstr}

lemma Calm.promise (h : Calm todo) (store : DbStore) (held : Held DbGate) :
    Promise store held todo := by
  intro a ha
  obtain ⟨hfrozen, hholds⟩ := h a ha
  refine ⟨fun tree htree => ?_, hholds store held⟩
  simp [hfrozen] at htree

lemma DbAct.Holds.mono {held' : Held DbGate} (h : a.Holds store held)
    (hsub : ∀ g ∈ held.exclusive, g ∈ held'.exclusive) : a.Holds store held' := by
  unfold DbAct.Holds at h ⊢
  split at h
  case h_5 =>
    obtain ⟨hpassed, batch, hbatch, hops, hexcl⟩ := h
    exact ⟨hpassed, batch, hbatch, hops, fun tree htree => hsub _ (hexcl tree htree)⟩
  all_goals exact h

/-- A thread that enters gates keeps what it was promised. -/
lemma Promise.mono {held' : Held DbGate} {todo' : List DbInstr} (h : Promise store held todo)
    (hfirst : firstAct todo' = firstAct todo) (hsub : ∀ g ∈ held.exclusive, g ∈ held'.exclusive) :
    Promise store held' todo' := by
  intro a ha
  obtain ⟨hfrozen, hholds⟩ := h a (hfirst ▸ ha)
  exact ⟨fun tree htree => ⟨hsub _ (hfrozen tree htree).1, (hfrozen tree htree).2⟩,
    hholds.mono hsub⟩

variable {base : ℕ}

lemma passed_congr {store' : DbStore}
    (hsame : ∀ tree ∈ batchTrees groups, (store'.trees tree).art = (store.trees tree).art)
    (h : Passed store groups base) : Passed store' groups base := by
  induction groups generalizing base with
  | nil => trivial
  | cons g rest ih =>
    obtain ⟨tree, ops⟩ := g
    refine ⟨?_, ih (forall_mem_cons.mp hsame).2 h.2⟩
    rw [hsame tree mem_cons_self]
    exact h.1

/-- Where nothing is staged, preflight checks what is applied later. -/
lemma passed_of_preflight (hpending : ∀ tree ∈ batchTrees groups, (store.trees tree).pending = [])
    (h : preflightGroups store groups base = true) : Passed store groups base := by
  induction groups generalizing base with
  | nil => trivial
  | cons g rest ih =>
    obtain ⟨tree, ops⟩ := g
    simp only [preflightGroups, hpending tree mem_cons_self] at h
    split at h
    case h_1 hpass =>
      exact ⟨specBatch_of_preflightSizedBatch hpass,
        ih (forall_mem_cons.mp hpending).2 h⟩
    case h_2 => exact absurd h nofun

/-- Where nothing is staged, a batch does not flush. -/
lemma flushesInside_eq_none
    (hpending : ∀ tree ∈ batchTrees groups, (store.trees tree).pending = []) :
    flushesInside store groups base = none := by
  induction groups generalizing base with
  | nil => rfl
  | cons g rest ih =>
    obtain ⟨tree, ops⟩ := g
    simp only [flushesInside, hpending tree mem_cons_self]
    rw [if_neg nofun]
    split
    · exact ih fun t ht => hpending t (mem_cons_of_mem _ ht)
    · rfl

lemma promise_of_first (hfirst : firstAct todo = some a) (ha : a.Promised store held) :
    Promise store held todo := by
  intro b hb
  cases hfirst.symm.trans hb
  exact ha

variable {rest : List DbInstr}

lemma prepared_committing (hne : ∀ trees, a ≠ .flushFrozen trees) (h : Calm rest ∧ Prepared rest) :
    Prepared (committing a ++ rest) := by
  cases a with
  | flushFrozen trees => exact absurd rfl (hne trees)
  | _ => exact h

lemma promised_of_plain (hfrozen : a.frozen = []) (hholds : a.Holds store held) :
    a.Promised store held :=
  ⟨fun tree htree => by simp [hfrozen] at htree, hholds⟩

variable {seq : ℕ} {op : BatchOp}

/-- An operation that does not collide and is specified succeeds. -/
lemma apply_of_spec {batch : Option ℕ} {m : VersionedMap} (hc : collides t.art op = false)
    (hspec : specBatchOp t.art seq op = .ok (some m)) :
    t.apply batch seq op = (⟨m, t.pending, t.made ++ [⟨batch, seq, op⟩]⟩, true) := by
  obtain ⟨logged, happly⟩ := applyBatchOp_of_spec hspec
  simp [TreeState.apply, hc, happly, Except.isOk, Except.toBool]

lemma specBatch_cons_inv {art m : VersionedMap} {ops : List BatchOp}
    (h : specBatch art seq (op :: ops) = .ok (some m)) :
    ∃ m', specBatchOp art seq op = .ok (some m') ∧
      specBatch m' (op.nextSeq seq) ops = .ok (some m) := by
  rw [specBatch] at h
  split at h
  case h_1 => exact absurd h (by simp)
  case h_2 => exact absurd h (by simp)
  case h_3 m' hop => exact ⟨m', hop, h⟩

/-- An operation that was promised succeeds, and the promise holds for the next one. -/
lemma promised_apply {ops : List BatchOp} (hc : collides (store.trees tree).art op = false)
    (h : (DbAct.apply (some id) ((tree, op :: ops) :: groups) seq).Promised store held) :
    ∃ t, (store.trees tree).apply (some id) seq op = (t, true) ∧
      (DbAct.apply (some id) ((tree, ops) :: groups) (op.nextSeq seq)).Promised
        (setTree store tree t) held := by
  obtain ⟨hfrozen, ⟨hnodup, ⟨m, hm⟩, hrest⟩, batch, hbatch, hops, hexcl⟩ := h
  obtain ⟨m', hop, hm'⟩ := specBatch_cons_inv hm
  have hnot : tree ∉ batchTrees groups := (nodup_cons.mp hnodup).1
  refine ⟨_, apply_of_spec hc hop, fun t ht => ⟨(hfrozen t ht).1, ?_⟩, ⟨hnodup, ⟨m, ?_⟩, ?_⟩,
    batch, hbatch, fun t => ?_, hexcl⟩
  · rw [trees_setTree]
    by_cases heq : t = tree
    · rw [if_pos heq]
      exact (hfrozen tree mem_cons_self).2
    · rw [if_neg heq]
      exact (hfrozen t ht).2
  · rw [trees_setTree, if_pos rfl]
    exact hm'
  · rw [nextSeq_add_batchCount]
    refine passed_congr (fun t ht => ?_) hrest
    have hne : t ≠ tree := fun heq => hnot (heq ▸ ht)
    rw [trees_setTree, if_neg hne]
  · have hold := hops t
    rw [opsOn_cons_op] at hold
    rw [trees_setTree]
    by_cases heq : t = tree
    · subst heq
      rw [if_pos rfl] at hold ⊢
      rw [effects_append, ← hold, ← append_assoc]
      simp [effects]
    · rw [if_neg heq]
      rw [if_neg (Ne.symm heq)] at hold
      exact hold

/-- What a thread has ahead of it is in order, and its next piece of work is promised. -/
structure GoesOn (store : DbStore) (held : Held DbGate) (todo : List DbInstr) : Prop where
  ascending : DbAscending held todo
  prepared : Prepared todo
  promise : Promise store held todo

lemma goesOn_of_plain {b : DbAct} (hascending : DbAscending held todo) (hprepared : Prepared todo)
    (hfirst : firstAct todo = some b) (hfrozen : b.frozen = []) (hholds : b.Holds store held) :
    GoesOn store held todo :=
  ⟨hascending, hprepared, promise_of_first hfirst (promised_of_plain hfrozen hholds)⟩

/-- After a piece of work its thread goes on. -/
lemma goesOn_run (hready : a.ready held) (hrest : DbAscending held rest)
    (hprepared : Prepared (.act a :: rest)) (hpromised : a.Promised store held)
    (hknown : ∀ tree, ∀ e ∈ (store.trees tree).made, ∀ id, e.batch = some id →
      id < store.batches.length) (hinside : ∀ groups gated, a = .preflight false groups gated →
      flushesInside store groups store.nextSeq = none) (hcollides : ∀ id tree op ops groups seq,
      a = .apply (some id) ((tree, op :: ops) :: groups) seq →
      collides (store.trees tree).art op = false) :
    GoesOn (a.run store).1 held ((a.run store).2 ++ rest) := by
  -- the thread leaves its work, with nothing promised
  have hleave : (∀ trees, a ≠ .flushFrozen trees) → ∀ store', GoesOn store' held rest := by
    intro hne store'
    have hcalm : Calm rest ∧ Prepared rest := by
      cases a with
      | flushFrozen trees => exact absurd rfl (hne trees)
      | _ => exact hprepared
    exact ⟨hrest, hcalm.2, hcalm.1.promise _ _⟩
  cases a with
  | flush | flushAll | stage => exact hleave (by simp) _
  | flushFrozen trees =>
    refine ⟨hrest, hprepared.2, fun a ha => ?_⟩
    obtain ⟨hfrozen, hholds⟩ := hprepared.1 a ha
    refine ⟨fun tree htree => ⟨hready tree (hfrozen tree htree), ?_⟩, hholds _ _⟩
    simp only [DbAct.run, if_pos (hfrozen tree htree)]
    rfl
  | flushIfNeeded tree =>
    obtain rfl : held = Held.none := hready
    simp only [DbAct.run]
    by_cases hpending : (store.trees tree).pending = []
    · rw [if_pos hpending]
      exact hleave (by simp) _
    · rw [if_neg hpending]
      exact goesOn_of_plain (ascending_flushSection.append hrest) ⟨hprepared.1, hprepared⟩ rfl rfl
        trivial
  | putDeferred tree key value | deleteDeferred tree key =>
    simp only [DbAct.run]
    split
    · exact hleave (by simp) _
    · exact goesOn_of_plain
        (ascending_committing hready.2 (mem_cons_of_mem _ hready.1) hrest)
        (prepared_committing (by simp) hprepared) rfl rfl trivial
  | capture todo roots =>
    cases todo with
    | nil => exact hleave (by simp) _
    | cons tree todo =>
      have hsame : ∀ {r : Root}, r.tree = tree → ∀ t ∈ todo ++ (roots ++ [r]).map Root.tree,
          t ∈ tree :: todo ++ roots.map Root.tree := by
        rintro r rfl t ht
        simp only [map_append, map_cons, map_nil, mem_append, cons_append,
          mem_cons] at ht ⊢
        tauto
      refine ⟨⟨fun t ht => hready t (hsame rfl t ht), hrest⟩, hprepared,
        promise_of_first rfl ⟨fun t ht => hpromised.1 t (hsame rfl t ht), fun r hr => ?_⟩⟩
      rcases Table.mem_concat hr with hr | rfl
      · exact hpromised.2 r hr
      · rfl
  | enterBatch db groups gated =>
    simp only [DbAct.run]
    by_cases hfailed : store.failedClosed = true
    · rw [if_pos hfailed]
      exact hleave (by simp) _
    · rw [if_neg hfailed]
      cases db with
      | false => exact goesOn_of_plain ⟨hready, hrest⟩ hprepared rfl rfl trivial
      | true =>
        simp only [if_true, append_assoc]
        refine goesOn_of_plain (ascending_committing hready.2 hready.1 ⟨hready, hrest⟩)
          ⟨fun a ha => ?_, hprepared⟩ rfl rfl trivial
        cases ha
        exact ⟨fun tree htree => htree, fun _ _ => hpromised.2⟩
  | preflight db groups gated =>
    have hnone : flushesInside store groups store.nextSeq = none := by
      cases db with
      | false => exact hinside groups gated rfl
      | true => exact flushesInside_eq_none fun tree htree => (hpromised.1 tree htree).2
    simp only [DbAct.run, hnone]
    by_cases hpass : preflightGroups store groups store.nextSeq = true ∧ countWalOps groups ≠ 0
    · rw [if_pos hpass]
      have hbegin : (DbAct.begin db groups store.nextSeq).Promised
          { store with nextSeq := store.nextSeq + countWalOps groups } held := by
        cases db with
        | false => exact promised_of_plain rfl (by trivial)
        | true =>
          refine ⟨hpromised.1, hpromised.2, @passed_congr _ store _ _ (fun _ _ => rfl)
            (passed_of_preflight (fun tree htree => (hpromised.1 tree htree).2) hpass.1)⟩
      by_cases hgated : gated = true
      · rw [if_pos hgated]
        exact ⟨ascending_committing hready.2 hready.1 hrest,
          prepared_committing (by simp) hprepared,
          promise_of_first rfl hbegin⟩
      · rw [if_neg hgated]
        exact ⟨⟨hready.1, hrest⟩, hprepared, promise_of_first rfl hbegin⟩
    · rw [if_neg hpass]
      exact hleave (by simp) _
  | begin db groups base =>
    cases db with
    | false => exact goesOn_of_plain ⟨hready, hrest⟩ hprepared rfl rfl trivial
    | true =>
      refine ⟨⟨hready, hrest⟩, hprepared, promise_of_first rfl ⟨hpromised.1,
        ⟨hpromised.2.1, @passed_congr _ store _ _ (fun _ _ => rfl) hpromised.2.2⟩, ⟨groups, base⟩,
        getElem?_concat_length, fun tree => ?_, hready⟩⟩
      have hnil : effects store.batches.length (store.trees tree).made = [] :=
        effects_eq_nil fun e he heq => lt_irrefl _ (hknown tree e he _ heq)
      simp [DbAct.run, hnil]
  | apply batch groups seq =>
    match groups with
    | [] => exact hleave (by simp) _
    | (tree, []) :: groups =>
      refine ⟨⟨fun t ht => hready t (mem_cons_of_mem _ ht), hrest⟩, hprepared,
        promise_of_first rfl ?_⟩
      cases batch with
      | none => exact promised_of_plain rfl (by trivial)
      | some id =>
        obtain ⟨hfrozen, ⟨hnodup, -, hrest⟩, b, hb, hops, hexcl⟩ := hpromised
        refine ⟨fun t ht => hfrozen t (mem_cons_of_mem _ ht),
          ⟨(nodup_cons.mp hnodup).2, hrest⟩, b, hb, fun t => ?_, hexcl⟩
        have hold : effects id (store.trees t).made ++ opsOn t groups seq =
            opsOn t b.groups b.base := by
          simpa [opsOn, numbered, batchCount] using hops t
        exact hold
    | (tree, op :: ops) :: groups =>
      cases batch with
      | none =>
        simp only [DbAct.run]
        split
        · exact goesOn_of_plain ⟨hready, hrest⟩ hprepared rfl rfl trivial
        · exact hleave (by simp) _
      | some id =>
        obtain ⟨t, happly, hnext⟩ :=
          promised_apply (hcollides id tree op ops groups seq rfl) hpromised
        simp only [DbAct.run, happly, if_true]
        exact ⟨⟨hready, hrest⟩, hprepared, promise_of_first rfl hnext⟩

/-- A piece of work enters a batch when it begins, and a view when it has copied its roots. -/
lemma run_records (store : DbStore) (a : DbAct) :
    ((a.run store).1.batches = match a with
      | .begin true groups base => store.batches ++ [⟨groups, base⟩]
      | _ => store.batches) ∧
    (a.run store).1.views = match a with
      | .capture [] roots => store.views ++ [roots]
      | _ => store.views := by
  cases a with
  | putDeferred | deleteDeferred =>
    simp only [DbAct.run]
    split
    · exact ⟨rfl, rfl⟩
    · exact ⟨rfl, rfl⟩
  | capture todo roots =>
    cases todo with
    | nil | cons tree todo => exact ⟨rfl, rfl⟩
  | begin db groups base =>
    cases db with
    | false | true => exact ⟨rfl, rfl⟩
  | apply batch groups seq =>
    match groups with
    | [] => exact ⟨rfl, rfl⟩
    | (_, []) :: _ => exact ⟨rfl, rfl⟩
    | (_, _ :: _) :: _ =>
      simp only [DbAct.run]
      split
      · exact ⟨rfl, rfl⟩
      · exact ⟨rfl, rfl⟩
  | _ => exact ⟨rfl, rfl⟩

variable {batch : DbBatch}

/-- A batch that has been begun, and one that is begun now. -/
lemma run_batches_cases (h : (a.run store).1.batches[id]? = some batch) :
    store.batches[id]? = some batch ∨
      (id = store.batches.length ∧ a = .begin true batch.groups batch.base) := by
  rw [(run_records store a).1] at h
  split at h
  · rcases Table.getElem?_append_cases h with h | ⟨rfl, rfl⟩
    · exact .inl h
    · exact .inr ⟨rfl, rfl⟩
  · exact .inl h

lemma run_batches_getElem? (a : DbAct) (h : store.batches[id]? = some batch) :
    (a.run store).1.batches[id]? = some batch := by
  rw [(run_records store a).1]
  split
  · rw [getElem?_append_left (List.getElem?_eq_some_iff.mp h).1]
    exact h
  · exact h

lemma length_le_run_batches (store : DbStore) (a : DbAct) :
    store.batches.length ≤ (a.run store).1.batches.length := by
  rw [(run_records store a).1]
  split
  · simp
  · exact le_rfl

/-- The work of a thread adds to what is done on behalf of a batch only if the thread applies an
operation of the batch. -/
lemma run_effects (hpromised : a.Promised store held) (hbatch : store.batches[id]? = some batch) :
    (∀ tree, effects id ((a.run store).1.trees tree).made = effects id (store.trees tree).made) ∨
      ∃ tree op ops groups seq, a = .apply (some id) ((tree, op :: ops) :: groups) seq ∧
        effects id (store.trees tree).made ≠ opsOn tree batch.groups batch.base ∧
        tree ∈ batchTrees batch.groups := by
  by_cases hid : a.batch = some id
  · cases a with
    | apply b groups seq =>
      obtain rfl : b = some id := hid
      match groups with
      | [] => exact .inl fun tree => rfl
      | (_, []) :: _ => exact .inl fun tree => rfl
      | (tree, op :: ops) :: groups =>
        obtain ⟨-, -, batch', hbatch', hops, -⟩ := hpromised
        cases hbatch.symm.trans hbatch'
        have hop := hops tree
        rw [opsOn_cons_op, if_pos rfl] at hop
        refine .inr ⟨tree, op, ops, groups, seq, rfl, fun hall => ?_, ?_⟩
        · rw [hall] at hop
          simp at hop
        · by_contra hnot
          rw [opsOn_of_notMem hnot] at hop
          simp at hop
    | _ => simp [DbAct.batch] at hid
  · exact .inl fun tree => (grown_run store a tree).effects_eq hid

/-- The work of one thread keeps the promises to the others: their trees are closed to it. -/
lemma promise_frame {u : DbThread} (hready : a.ready held) (hpromised : a.Promised store held)
    (hapart : ∀ g ∈ u.held.exclusive, g ∉ held.all) (hu : Promise store u.held u.todo) :
    Promise (a.run store).1 u.held u.todo := by
  intro b hb
  obtain ⟨hfrozen, hholds⟩ := hu b hb
  have hsame : ∀ tree ∈ b.frozen, (a.run store).1.trees tree = store.trees tree :=
    fun tree htree => run_trees_frame hready (hapart _ (hfrozen tree htree).1)
      (hfrozen tree htree).2
  refine ⟨fun tree htree => ⟨(hfrozen tree htree).1, ?_⟩, ?_⟩
  · rw [hsame tree htree]
    exact (hfrozen tree htree).2
  · unfold DbAct.Holds at hholds ⊢
    split at hholds
    case h_1 todo roots =>
      intro r hr
      rw [hsame r.tree (mem_append_right _ (List.mem_map_of_mem hr))]
      exact hholds r hr
    case h_4 groups base =>
      exact ⟨hholds.1, passed_congr (fun tree htree => by rw [hsame tree htree]) hholds.2⟩
    case h_5 id groups seq =>
      obtain ⟨⟨hnodup, hpassed⟩, batch, hbatch, hops, hexcl⟩ := hholds
      refine ⟨⟨hnodup, passed_congr (fun tree htree => by rw [hsame tree htree]) hpassed⟩, batch,
        run_batches_getElem? a hbatch, fun tree => ?_, hexcl⟩
      rcases run_effects hpromised hbatch with heffects | ⟨t, op, ops, rest, seq', rfl, -, ht⟩
      · rw [heffects]
        exact hops tree
      · -- two threads cannot both have the mutation gate of `t`
        exact absurd (mem_append_right _ (mem_append_right _
          (hready t mem_cons_self))) (hapart _ (hexcl t ht))
    all_goals exact hholds

/-! ## The programs -/

lemma groupBatchOps_nodup (ops : List (ℕ × BatchOp)) : (batchTrees (groupBatchOps ops)).Nodup := by
  induction ops with
  | nil => exact nodup_nil
  | cons x ops ih =>
    obtain ⟨tree, op⟩ := x
    simp only [groupBatchOps, batchTrees, map_cons, nodup_cons]
    refine ⟨?_, ih.sublist (filter_sublist.map _)⟩
    simp

@[simp] lemma firstAct_enterMutations (trees : List ℕ) (rest : List DbInstr) :
    firstAct (enterMutations trees ++ rest) = firstAct rest := by
  induction trees with
  | nil => rfl
  | cons tree trees ih => exact ih

@[simp] lemma prepared_enterMutations (trees : List ℕ) (rest : List DbInstr) :
    Prepared (enterMutations trees ++ rest) ↔ Prepared rest := by
  induction trees with
  | nil => rfl
  | cons tree trees ih => exact ih

@[simp] lemma firstAct_leaveMutations (trees : List ℕ) (rest : List DbInstr) :
    firstAct (leaveMutations trees ++ rest) = firstAct rest := by
  induction trees with
  | nil => rfl
  | cons tree trees ih => exact ih

lemma prepared_leaveMutations {trees : List ℕ} (hcalm : Calm rest) (hrest : Prepared rest) :
    Prepared (leaveMutations trees ++ rest) := by
  induction trees with
  | nil => exact hrest
  | cons tree trees ih =>
    refine ⟨fun a ha => hcalm a ?_, ih⟩
    rw [← ha]
    exact (firstAct_leaveMutations trees rest).symm

lemma calm_of_first (hfirst : firstAct todo = some a) (hfrozen : a.frozen = [])
    (hholds : ∀ store held, a.Holds store held) : Calm todo := by
  intro b hb
  cases hfirst.symm.trans hb
  exact ⟨hfrozen, hholds⟩

lemma calm_of_none (h : firstAct todo = none) : Calm todo := by
  intro a ha
  simp [h] at ha

/-- No request asks for frozen trees before it has flushed them. -/
lemma prepared_program (r : DbRequest) : Calm r.program ∧ Prepared r.program := by
  have hdone : ∀ trees, Calm (leaveMutations trees ++ [.leaveShared .maintenance]) ∧
      Prepared (leaveMutations trees ++ [.leaveShared .maintenance]) := fun trees =>
    ⟨calm_of_none (firstAct_leaveMutations ..), prepared_leaveMutations (calm_of_none rfl) trivial⟩
  cases r with
  | view trees =>
    simp only [DbRequest.program, append_assoc]
    refine ⟨calm_of_first (firstAct_enterMutations ..) rfl (fun _ _ => trivial),
      (prepared_enterMutations _ _).mpr ⟨fun a ha => ?_, hdone _⟩⟩
    cases ha
    exact ⟨fun tree htree => by simpa [DbAct.frozen] using htree, fun _ _ r hr => by simp at hr⟩
  | atomic ops gated =>
    simp only [DbRequest.program, append_assoc]
    exact ⟨calm_of_first (firstAct_enterMutations ..) rfl (fun _ _ => groupBatchOps_nodup ops),
      (prepared_enterMutations _ _).mpr (hdone _)⟩
  | treeAtomic tree ops gated =>
    refine ⟨calm_of_first rfl rfl (fun _ _ => trivial),
      calm_of_first rfl rfl (fun _ _ => trivial), ?_⟩
    exact ⟨calm_of_none rfl, calm_of_none rfl, trivial⟩
  | put tree key value | delete tree key | scanKeys tree =>
    exact ⟨calm_of_first rfl rfl (fun _ _ => trivial), calm_of_none rfl, trivial⟩
  | snapshot tree | checkpointRound =>
    exact ⟨calm_of_first rfl rfl (fun _ _ => trivial), calm_of_none rfl, calm_of_none rfl, trivial⟩
  | compactCandidate tree | mergePass | journalState =>
    exact ⟨calm_of_none rfl, calm_of_none rfl, trivial⟩
  | mergeCandidate tree | truncate =>
    exact ⟨calm_of_none rfl, calm_of_none rfl, calm_of_none rfl, trivial⟩
  | gcPass trees =>
    exact ⟨calm_of_first rfl rfl (fun _ _ => trivial),
      calm_of_first rfl rfl (fun _ _ => trivial), calm_of_none rfl, calm_of_none rfl,
      calm_of_none rfl, trivial⟩

/-! ## The invariant -/

/-- The roots of a view are those of one moment: each is made by what had been done to its tree,
and of every DB batch all operations had been done to these trees, or none. -/
structure IsCut (arts : ℕ → VersionedMap) (batches : List DbBatch) (roots : List Root) : Prop where
  images : ∀ r ∈ roots, r.image = replayMade (arts r.tree) r.made
  known : ∀ r ∈ roots, ∀ e ∈ r.made, ∀ id, e.batch = some id → id < batches.length
  allOrNone : ∀ id batch, batches[id]? = some batch →
    (∀ r ∈ roots, effects id r.made = opsOn r.tree batch.groups batch.base) ∨
      ∀ r ∈ roots, effects id r.made = []

structure CutInv (arts : ℕ → VersionedMap) (s : DbState) : Prop where
  admitted : Admitted s
  ascending : ∀ t ∈ s.threads, DbAscending t.held t.todo
  prepared : ∀ t ∈ s.threads, Prepared t.todo
  promise : ∀ t ∈ s.threads, Promise s.store t.held t.todo
  images : ∀ tree, (s.store.trees tree).art = replayMade (arts tree) (s.store.trees tree).made
  known : ∀ tree, ∀ e ∈ (s.store.trees tree).made, ∀ id, e.batch = some id →
    id < s.store.batches.length
  /-- A DB batch has been applied, or a thread applies it. -/
  applied : ∀ id batch, s.store.batches[id]? = some batch →
    (∀ tree, effects id (s.store.trees tree).made = opsOn tree batch.groups batch.base) ∨
      ∃ (i : ℕ) (t : DbThread) (groups : Groups) (seq : ℕ), s.threads[i]? = some t ∧
        firstAct t.todo = some (.apply (some id) groups seq)
  views : ∀ roots ∈ s.store.views, IsCut arts s.store.batches roots

lemma cutInv_initial (arts : ℕ → VersionedMap) (nextSeq : ℕ) :
    CutInv arts (State.initial (DbStore.opened arts nextSeq)) where
  admitted := admitted_initial _
  ascending := by simp [State.initial]
  prepared := by simp [State.initial]
  promise := by simp [State.initial]
  images _ := rfl
  known := by simp [State.initial, DbStore.opened]
  applied := by simp [State.initial, DbStore.opened]
  views := by simp [State.initial, DbStore.opened]

variable {arts : ℕ → VersionedMap}

/-- A view stays a cut when later batches begin. -/
lemma IsCut.mono {roots : List Root} (a : DbAct) (h : IsCut arts store.batches roots) :
    IsCut arts (a.run store).1.batches roots where
  images := h.images
  known r hr e he id hid := (h.known r hr e he id hid).trans_le (length_le_run_batches store a)
  allOrNone id batch hbatch := by
    rcases run_batches_cases hbatch with hold | ⟨rfl, -⟩
    · exact h.allOrNone id batch hold
    · exact .inr fun r hr => effects_eq_nil fun e he heq =>
        lt_irrefl _ (h.known r hr e he _ heq)

variable {s : DbState} {i : ℕ}

variable (hinv : CutInv arts s)
include hinv

/-- When the last root is copied, no batch is under way on the trees of the view. -/
lemma CutInv.isCut {roots : List Root}
    (ht : s.threads[i]? = some ⟨held, .act (.capture [] roots) :: rest⟩) :
    IsCut arts s.store.batches roots := by
  obtain ⟨hfrozen, hholds⟩ := hinv.promise _ (mem_of_getElem? ht) _ rfl
  have hmade : ∀ r ∈ roots, r.made = (s.store.trees r.tree).made := fun r hr =>
    congrArg Root.made (hholds r hr)
  refine ⟨fun r hr => ?_, fun r hr e he => ?_, fun id batch hbatch => ?_⟩
  · rw [hmade r hr, ← hinv.images]
    exact congrArg Root.image (hholds r hr)
  · rw [hmade r hr] at he
    exact hinv.known r.tree e he
  · rcases hinv.applied id batch hbatch with hall | ⟨k, u, groups, seq, hu, hfirst⟩
    · refine .inl fun r hr => ?_
      rw [hmade r hr]
      exact hall r.tree
    · -- the batch is being applied, and has the mutation gates of all its trees
      have hne : k ≠ i := by
        rintro rfl
        cases ht.symm.trans hu
        exact absurd hfirst nofun
      obtain ⟨-, -, batch', hbatch', hops, hexcl⟩ :=
        hinv.promise u (mem_of_getElem? hu) _ hfirst
      cases hbatch.symm.trans hbatch'
      refine .inr fun r hr => ?_
      have hmine := (hfrozen r.tree (List.mem_map_of_mem hr)).1
      have hnot : r.tree ∉ batchTrees batch.groups := fun hmem =>
        hinv.admitted.exclusive_apart hu ht hne (hexcl r.tree hmem)
          (mem_append_right _ (mem_append_right _ hmine))
      have hnil := hops r.tree
      rw [opsOn_of_notMem hnot] at hnil
      rw [hmade r hr]
      exact (append_eq_nil_iff.mp hnil).1

/-- After a piece of work, too, every DB batch has been applied or is being applied. -/
lemma CutInv.applied_run (ht : s.threads[i]? = some ⟨held, .act a :: rest⟩)
    (hcollides : ∀ id tree op ops groups seq,
      a = .apply (some id) ((tree, op :: ops) :: groups) seq →
      collides (s.store.trees tree).art op = false)
    (hbatch : (a.run s.store).1.batches[id]? = some batch) :
    (∀ tree, effects id ((a.run s.store).1.trees tree).made =
        opsOn tree batch.groups batch.base) ∨
      ∃ (k : ℕ) (t : DbThread) (groups : Groups) (seq : ℕ),
        (s.threads.set i ⟨held, (a.run s.store).2 ++ rest⟩)[k]? = some t ∧
        firstAct t.todo = some (.apply (some id) groups seq) := by
  have hi : i < s.threads.length := (List.getElem?_eq_some_iff.mp ht).1
  have hself : (s.threads.set i ⟨held, (a.run s.store).2 ++ rest⟩)[i]? =
      some ⟨held, (a.run s.store).2 ++ rest⟩ := getElem?_set_self hi
  have hpromised := hinv.promise _ (mem_of_getElem? ht) a rfl
  rcases run_batches_cases hbatch with hold | ⟨rfl, rfl⟩
  · rcases hinv.applied id batch hold with hall | ⟨k, u, groups, seq, hu, hfirst⟩
    · rcases run_effects hpromised hold with heffects | ⟨tree, -, -, -, -, -, hmore, -⟩
      · exact .inl fun tree => (heffects tree).trans (hall tree)
      · exact absurd (hall tree) hmore
    · by_cases hki : k = i
      · -- the thread applies the batch itself
        subst hki
        cases ht.symm.trans hu
        cases hfirst
        match groups with
        | [] =>
          obtain ⟨-, -, batch', hbatch', hops, -⟩ := hpromised
          cases hold.symm.trans hbatch'
          exact .inl fun tree => (append_nil _).symm.trans (hops tree)
        | (_, []) :: groups => exact .inr ⟨k, _, groups, seq, hself, rfl⟩
        | (tree, op :: ops) :: groups =>
          obtain ⟨t, happly, -⟩ :=
            promised_apply (hcollides id tree op ops groups seq rfl) hpromised
          refine .inr ⟨k, _, (tree, ops) :: groups, op.nextSeq seq, hself, ?_⟩
          simp only [DbAct.run, happly, if_true]
          rfl
      · refine .inr ⟨k, u, groups, seq, ?_, hfirst⟩
        rw [getElem?_set_ne (Ne.symm hki)]
        exact hu
  · exact .inr ⟨i, _, batch.groups, batch.base, hself, rfl⟩

variable {s' : DbState}

/-- A piece of work keeps the invariant. -/
lemma CutInv.act (hstep : dbStep s (.run i) = some s')
    (ht : s.threads[i]? = some ⟨held, .act a :: rest⟩)
    (hs' : s' = ⟨s.gates, (a.run s.store).1, s.threads.set i ⟨held, (a.run s.store).2 ++ rest⟩⟩)
    (hinside : ∀ groups gated, a = .preflight false groups gated →
      flushesInside s.store groups s.store.nextSeq = none) (hcollides : ∀ id tree op ops groups seq,
      a = .apply (some id) ((tree, op :: ops) :: groups) seq →
      collides (s.store.trees tree).art op = false) : CutInv arts s' := by
  have hadmitted := hinv.admitted.step hstep
  subst hs'
  have hmem := mem_of_getElem? ht
  have hascending := hinv.ascending _ hmem
  have hready : a.ready held := hascending.1
  have hpromised := hinv.promise _ hmem a rfl
  have hown := goesOn_run hready hascending.2 (hinv.prepared _ hmem) hpromised hinv.known hinside
    hcollides
  refine ⟨hadmitted, ?_, ?_, ?_, fun tree => ?_, fun tree e he id hid => ?_,
    fun id batch hbatch => hinv.applied_run ht hcollides hbatch, fun roots hroots => ?_⟩
  · exact Table.forall_mem_set hinv.ascending hown.ascending
  · exact Table.forall_mem_set hinv.prepared hown.prepared
  · intro u hu
    obtain ⟨k, hk⟩ := mem_iff_getElem?.mp hu
    rcases Table.getElem?_set_cases hk with ⟨-, rfl⟩ | ⟨hne, hk⟩
    · exact hown.promise
    · exact promise_frame hready hpromised
        (fun g hg => hinv.admitted.exclusive_apart hk ht hne hg)
        (hinv.promise u (mem_of_getElem? hk))
  · obtain ⟨more, hmade, hart, -⟩ := (grown_run s.store a tree).exists_more
    rw [hmade, hart, hinv.images tree, replayMade_append]
  · obtain ⟨more, hmade, -, hbatch⟩ := (grown_run s.store a tree).exists_more
    have hgrows := length_le_run_batches s.store a
    rcases mem_append.mp (hmade ▸ he) with he | he
    · exact (hinv.known tree e he id hid).trans_le hgrows
    · rcases hbatch e he with hnone | hsome
      · simp [hnone] at hid
      · cases a with
        | apply batch groups seq =>
          obtain rfl : batch = some id := hsome.symm.trans hid
          obtain ⟨-, -, b, hb, -⟩ := hpromised
          exact (List.getElem?_eq_some_iff.mp hb).1.trans_le hgrows
        | _ => exact absurd (hsome.symm.trans hid) nofun
  · change roots ∈ (a.run s.store).1.views at hroots
    rw [(run_records s.store a).2] at hroots
    split at hroots
    · rcases Table.mem_concat hroots with hroots | rfl
      · exact (hinv.views roots hroots).mono _
      · exact hinv.isCut ht
    · exact (hinv.views roots hroots).mono a

omit hinv in
/-- An instruction that is no work leaves the store and the next piece of work as they are. -/
lemma fire_gate {gates : DbGate → Gate} {instr : DbInstr} {r : (DbGate → Gate) × DbStore × DbThread}
    (hnot : ∀ a, instr ≠ .act a) (h : fire DbAct.run gates store held rest instr = some r)
    (hprepared : Prepared (instr :: rest)) (hpromise : Promise store held (instr :: rest)) :
    r.2.1 = store ∧ firstAct r.2.2.todo = firstAct (instr :: rest) ∧ Prepared r.2.2.todo ∧
      Promise store r.2.2.held r.2.2.todo := by
  cases instr with
  | enterShared g | setWrite g =>
    obtain ⟨gate, -, rfl⟩ := Option.map_eq_some_iff.mp h
    exact ⟨rfl, rfl, hprepared, hpromise.mono rfl fun _ hg => hg⟩
  | drain g =>
    obtain ⟨-, rfl⟩ := guard_eq_some.mp h
    exact ⟨rfl, rfl, hprepared, hpromise.mono rfl fun _ hg => mem_cons_of_mem _ hg⟩
  | leaveShared g =>
    obtain ⟨-, rfl⟩ := guard_eq_some.mp h
    exact ⟨rfl, rfl, hprepared, hpromise.mono rfl fun _ hg => hg⟩
  | leaveExclusive g =>
    obtain ⟨-, rfl⟩ := guard_eq_some.mp h
    exact ⟨rfl, rfl, hprepared.2, hprepared.1.promise _ _⟩
  | act a => exact absurd rfl (hnot a)

/-- A step at a gate changes no tree. -/
lemma CutInv.gate {instr : DbInstr} {r : (DbGate → Gate) × DbStore × DbThread}
    (hnot : ∀ a, instr ≠ .act a) (hstep : dbStep s (.run i) = some s')
    (ht : s.threads[i]? = some ⟨held, instr :: rest⟩)
    (hfire : fire DbAct.run s.gates s.store held rest instr = some r)
    (hs' : s' = ⟨r.1, r.2.1, s.threads.set i r.2.2⟩) : CutInv arts s' := by
  have hadmitted := hinv.admitted.step hstep
  subst hs'
  have hmem := mem_of_getElem? ht
  have hascending : DbAscending r.2.2.held r.2.2.todo :=
    Ascending.fire (fun a ha => absurd ha (hnot a)) (hinv.ascending _ hmem) hfire
  obtain ⟨gates, store, t⟩ := r
  obtain ⟨hstore, hfirst, hprepared, hpromise⟩ :=
    fire_gate hnot hfire (hinv.prepared _ hmem) (hinv.promise _ hmem)
  obtain rfl : store = s.store := hstore
  refine ⟨hadmitted, Table.forall_mem_set hinv.ascending hascending,
    Table.forall_mem_set hinv.prepared hprepared, Table.forall_mem_set hinv.promise hpromise,
    hinv.images, hinv.known, fun id batch hbatch => ?_, hinv.views⟩
  rcases hinv.applied id batch hbatch with hall | ⟨k, u, groups, seq, hu, hu'⟩
  · exact .inl hall
  · by_cases hki : k = i
    · subst hki
      cases ht.symm.trans hu
      have hi : k < s.threads.length := (List.getElem?_eq_some_iff.mp ht).1
      exact .inr ⟨k, t, groups, seq, getElem?_set_self hi, hfirst.trans hu'⟩
    · exact .inr ⟨k, u, groups, seq, (getElem?_set_ne (Ne.symm hki)).trans hu, hu'⟩

lemma CutInv.call {r : DbRequest} (hstep : dbStep s (.call r) = some s') :
    CutInv arts s' := by
  have hadmitted := hinv.admitted.step hstep
  cases hstep
  obtain ⟨hcalm, hprepared⟩ := prepared_program r
  refine ⟨hadmitted, Table.forall_mem_concat hinv.ascending (ascending_program r),
    Table.forall_mem_concat hinv.prepared hprepared,
    Table.forall_mem_concat hinv.promise (hcalm.promise _ _), hinv.images, hinv.known,
    fun id batch hbatch => ?_, hinv.views⟩
  rcases hinv.applied id batch hbatch with hall | ⟨k, u, groups, seq, hu, hfirst⟩
  · exact .inl hall
  · refine .inr ⟨k, u, groups, seq, ?_, hfirst⟩
    exact (getElem?_append_left (List.getElem?_eq_some_iff.mp hu).1).trans hu

/-- The step lemma. -/
lemma cutInv_step {a : GateProgram.Action DbRequest} (horderly : Orderly s a)
    (hstep : dbStep s a = some s') : CutInv arts s' := by
  cases a with
  | call r => exact hinv.call hstep
  | run i =>
    obtain ⟨held, instr, rest, r, ht, hfire, hs'⟩ := step_run_inv hstep
    cases instr with
    | act a =>
      cases hfire
      refine hinv.act hstep ht hs' ?_ ?_
      · rintro groups gated rfl
        simpa [Orderly, orderly, ht] using horderly
      · rintro id tree op ops groups seq rfl
        simp only [Orderly, orderly, ht, decide_eq_true_eq] at horderly
        exact collides_eq_false horderly.1 horderly.2
    | enterShared | setWrite | drain | leaveShared | leaveExclusive =>
      exact hinv.gate (fun _ h => by cases h) hstep ht hfire hs'

/-! ## Every run -/

omit hinv

/-- A tree with the key `a`, among empty ones. -/
def treesWithA (tree : ℕ) : VersionedMap :=
  if tree = 1 then Finmap.insert [97] ⟨[0], 1⟩ ∅ else ∅

/-- A batch on two trees, which takes the given steps, and then a view of both. -/
def batchThenView (key : Key) (steps : ℕ) : List (GateProgram.Action DbRequest) :=
  [.call (.atomic [(0, .put [120] [1]), (1, .put key [2])] false)] ++
    List.replicate steps (.run 0) ++ [.call (.view [1, 0])] ++ List.replicate 14 (.run 1)

/-- A view shows some but not all operations of the first batch. -/
def showsPart (s : DbState) : Bool :=
  s.store.views.any fun roots => s.store.batches[0]?.any fun batch =>
    roots.any (fun r => decide (effects 0 r.made ≠ opsOn r.tree batch.groups batch.base)) &&
      roots.any (fun r => decide (effects 0 r.made ≠ []))

lemma showsPart_inv (h : showsPart s = true) :
    ∃ roots ∈ s.store.views, ¬ IsCut arts s.store.batches roots := by
  obtain ⟨roots, hroots, hpart⟩ := List.any_eq_true.mp h
  obtain ⟨batch, hbatch, hpart⟩ := (Option.any_eq_true _ _).mp hpart
  simp only [Bool.and_eq_true, List.any_eq_true, decide_eq_true_eq] at hpart
  obtain ⟨⟨r, hr, hnotAll⟩, r', hr', hsome⟩ := hpart
  refine ⟨roots, hroots, fun hcut => ?_⟩
  rcases hcut.allOrNone 0 batch hbatch with hall | hnone
  · exact hnotAll (hall r hr)
  · exact hsome (hnone r' hr')

/-- A put is staged between the flush of a batch on one tree and its gates, and a merge pass
begins once the batch is inside. -/
def scanInsideGates : List (GateProgram.Action DbRequest) :=
  [.call (.treeAtomic 0 [.put [98] [], .assertPrefixEmpty [97]] false), .run 0,
    .call (.put 0 [97] [1])] ++ List.replicate 8 (.run 1) ++ List.replicate 5 (.run 0) ++
    [.call .mergePass, .run 2]

/-- A thread that is in the maintenance gate waits to enter it again, and another waits for it to
drain. -/
def waitAtMaintenance (t u : DbThread) : Bool :=
  decide (DbGate.maintenance ∈ t.held.shared) && decide (DbGate.maintenance ∈ u.held.claimed) &&
    match t.todo, u.todo with
    | .enterShared .maintenance :: _, .drain .maintenance :: _ => true
    | _, _ => false

lemma waitAtMaintenance_inv {j : ℕ} {t u : DbThread} (ht : s.threads[i]? = some t)
    (hu : s.threads[j]? = some u) (h : waitAtMaintenance t u = true) :
    WaitsFor s i j ∧ WaitsFor s j i := by
  simp only [waitAtMaintenance, Bool.and_eq_true, decide_eq_true_eq] at h
  obtain ⟨⟨hshared, hclaimed⟩, htodo⟩ := h
  split at htodo
  case h_1 rest rest' hrest hrest' =>
    refine ⟨⟨t, u, _, rest, .maintenance, ht, hu, hrest, .inl ⟨rfl, ?_⟩⟩,
      ⟨u, t, _, rest', .maintenance, hu, ht, hrest', .inr ⟨rfl, hshared⟩⟩⟩
    exact mem_append_left _ hclaimed
  case h_2 => cases htodo

end Views
end Db
end Holt
