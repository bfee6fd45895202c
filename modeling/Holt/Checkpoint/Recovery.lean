import Holt.Checkpoint.SessionInvariant

/-!
# Recovery

`replay_wal` redoes every operation of the retained log on whatever mix of old and new blobs
the disk holds.  Inserts and erases do not look at what they find, but a rename does: on
blobs that already hold its effect it finds its source gone, or its destination taken, and is
skipped.  `rename_not_redone` has a put, a rename of the key it wrote, and a crash after both
are on disk: after reopening the key is back beside its new name.

`recovery_exact` is what holds: in every run whose renames are covered by the retained log,
every crash reopens to exactly the acknowledged map.

Two facts carry the proof.  Whatever the mix of recovered images, a key that no retained
record replaces reads as it did when the log was last empty (`Images`): images are taken
between writes, spills and merges only move records, and a blob is on disk only after its
children.  And replay from any map that is right on the other keys ends right
(`redo_exact`): the first record that replaces a key makes it right, and a covered rename
meets only keys that are right already.
-/

namespace Holt
namespace Checkpoint

open List Option PrefixForest Holt.Tree Transition

/-! ## A rename is not redone -/

/-- One empty blob, the root. -/
def emptyRoot : Blobs ℕ := fun g => if g = 0 then some ⟨fun _ => none, []⟩ else none

/-- `put(a, 1)`, `rename(a, b)`, and a round that writes the root. -/
def putThenRename : List (Step ℕ) :=
  [.put [97] [1], .flushWriteDelta, .commit [.rename [97] [98] false], .capture [0], .startBatch,
    .planWave, .writeBlob, .flushInner]

/-- The newest image of every blob that reached the disk. -/
def newest {γ : Type*} (s : Session γ) : Blobs γ := fun g => (s.disk g).head?

lemma recovers_newest {γ : Type*} (s : Session γ) : Recovers s (newest s) := by
  intro g
  rw [newest]
  cases h : s.disk g with
  | nil => exact .inl ⟨rfl, .inl rfl⟩
  | cons blob rest => exact .inr ⟨blob, mem_cons_self, rfl⟩

section Log

/-- The operations of a log. -/
def loggedOps (wal : List WalRecord) : List WalOp := (walOps wal).map Prod.snd

/-- A retained record replaces the record under the key. -/
def Touched (wal : List WalRecord) (key : Key) : Prop := (loggedOps wal).any (replaces key) = true

lemma loggedOps_append (wal : List WalRecord) (record : WalRecord) :
    loggedOps (wal ++ [record]) = loggedOps wal ++ loggedOps [record] := by
  simp [loggedOps, walOps]

lemma map_snd_swap_zipIdx {α : Type*} (xs : List α) (n : ℕ) :
    ((xs.zipIdx n).map Prod.swap).map Prod.snd = xs := by
  rw [List.map_map]
  exact zipIdx_map_fst n xs

lemma loggedOps_record {γ : Type*} (s : Session γ) (ops : List WalOp) :
    loggedOps [s.record ops] = ops := by
  unfold Session.record
  split
  · simp [loggedOps, walOps]
  · simpa [loggedOps, walOps] using map_snd_swap_zipIdx _ _

lemma renamesCovered_append {seen xs ys : List WalOp} (hxs : renamesCovered seen xs = true)
    (hys : renamesCovered (seen ++ xs) ys = true) : renamesCovered seen (xs ++ ys) = true := by
  induction xs generalizing seen with
  | nil => simpa using hys
  | cons x xs ih =>
    simp only [renamesCovered, Bool.and_eq_true] at hxs
    simp only [cons_append, renamesCovered, Bool.and_eq_true]
    exact ⟨hxs.1, ih hxs.2 (by simpa using hys)⟩

lemma acknowledged_eq (m : Key → Option Value) (wal : List WalRecord) :
    acknowledged m wal = (loggedOps wal).foldl acknowledge m := by
  rw [acknowledged, loggedOps, foldl_map]

end Log

/-! ## Runs -/

section Runs

variable {γ : Type*} [DecidableEq γ] {root : γ} {base : Key → Option Record} {s : Session γ}

/-- What every state of a run with covered renames satisfies. -/
structure Inv (root : γ) (base : Key → Option Record) (s : Session γ) : Prop where
  images : Images root base (Touched s.wal) s
  stagedOnce : StagedOnce s.pending
  staged : ∀ d ∈ s.pending, Touched s.wal d.key
  view : ∀ key, (s.view root key).map Record.value =
    (loggedOps s.wal).foldl acknowledge (fun k => (base k).map Record.value) key
  accepted : AllAccepted (fun k => (base k).map Record.value) (loggedOps s.wal)
  covered : renamesCovered [] (loggedOps s.wal) = true

lemma Touched.append {wal : List WalRecord} {key : Key} (h : Touched wal key)
    (record : WalRecord) : Touched (wal ++ [record]) key := by
  rw [Touched, loggedOps_append, any_append, Bool.or_eq_true]
  exact .inl h

lemma touched_append_of_mem {wal : List WalRecord} {key : Key} {record : WalRecord} {op : WalOp}
    (hop : op ∈ loggedOps [record]) (h : replaces key op = true) :
    Touched (wal ++ [record]) key := by
  rw [Touched, loggedOps_append, any_append, Bool.or_eq_true]
  exact .inr (List.any_eq_true.mpr ⟨op, hop, h⟩)

omit [DecidableEq γ] in
/-- A staged operation is logged and changes the view under its key. -/
lemma Inv.stage (inv : Inv root base s) {d : DeltaOp} {record : WalRecord} (n : ℕ) (op : WalOp)
    (hrecord : loggedOps [record] = [op]) (hkey : replaces d.key op = true)
    (hrename : ∀ src dst force, op ≠ .rename src dst force)
    (hop : ∀ m, acknowledge m op = Function.update m d.key (d.entry.record.map Record.value)) :
    Inv root base { s.logged record n with pending := insertPending s.pending d } := by
  have hwal : loggedOps (s.wal ++ [record]) = loggedOps s.wal ++ [op] := by
    rw [loggedOps_append, hrecord]
  have htouch : ∀ key, Touched s.wal key → Touched (s.wal ++ [record]) key :=
    fun key h => h.append record
  have himages := inv.images.mono htouch
  refine ⟨{ himages with }, stagedOnce_insertPending inv.stagedOnce d, ?_, ?_, ?_, ?_⟩
  · intro x hx
    rcases mem_append.mp hx with hx | hx
    · exact htouch _ (inv.staged x (mem_filter.mp hx).1)
    · rw [mem_singleton.mp hx]
      exact touched_append_of_mem (hrecord ▸ mem_singleton_self op) hkey
  · intro key
    have hold := inv.view key
    simp only [Session.view, Session.logged] at hold ⊢
    rw [hwal, foldl_append, foldl_cons, foldl_nil, hop,
      lookupWriteDelta_insertPending]
    rcases eq_or_ne key d.key with rfl | hne
    · simp
    · rw [Function.update_of_ne hne, if_neg hne]
      exact hold
  · simp only [Session.logged, hwal]
    refine allAccepted_append inv.accepted ⟨?_, trivial⟩
    cases op with
    | insert _ _ => trivial
    | erase _ => trivial
    | rename src dst force => exact absurd rfl (hrename src dst force)
  · simp only [Session.logged, hwal]
    refine renamesCovered_append inv.covered ?_
    cases op with
    | insert _ _ => rfl
    | erase _ => rfl
    | rename src dst force => exact absurd rfl (hrename src dst force)

variable {T : Key → Prop}

/-- Flushing staged operations leaves in the blobs what readers saw. -/
lemma foldl_writeRecord (ops : List DeltaOp) (himages : Images root base T s)
    (honce : StagedOnce ops) (hT : ∀ d ∈ ops, T d.key) :
    ∃ live dirty, ops.foldl (fun s op => s.writeRecord root op.key op.entry.record) s =
        { s with live := live, dirty := dirty } ∧
      Images root base T { s with live := live, dirty := dirty } ∧
      ∀ key, lookupBlobs live root key = match lookupWriteDelta ops key with
        | some entry => entry.record
        | none => lookupBlobs s.live root key := by
  induction ops generalizing s with
  | nil => exact ⟨s.live, s.dirty, rfl, himages, fun key => rfl⟩
  | cons op rest ih =>
    have hop : ∀ d ∈ rest, d.key ≠ op.key := by
      intro d hd heq
      exact (nodup_cons.mp honce).1 (heq ▸ List.mem_map_of_mem hd)
    have hstep := himages.writeRecord (hT op mem_cons_self) op.entry.record
    obtain ⟨live, dirty, hfold, himg, hlook⟩ := ih hstep (nodup_cons.mp honce).2
      (forall_mem_cons.mp hT).2
    refine ⟨live, dirty, hfold, himg, fun key => ?_⟩
    rw [hlook key]
    have hwrite : lookupBlobs (s.writeRecord root op.key op.entry.record).live root key =
        if key = op.key then op.entry.record else lookupBlobs s.live root key :=
      lookupBlobs_write himages.rooted op.key key _
    rw [hwrite]
    rcases eq_or_ne key op.key with rfl | hne
    · rw [lookupWriteDelta_eq_none.mpr hop]
      simp [lookupWriteDelta]
    · simp [lookupWriteDelta, Ne.symm hne, hne]

lemma Inv.flushWriteDelta (inv : Inv root base s) : Inv root base (s.flushWriteDelta root) := by
  obtain ⟨live, dirty, hfold, himg, hlook⟩ :=
    foldl_writeRecord s.pending inv.images inv.stagedOnce inv.staged
  rw [Session.flushWriteDelta, hfold]
  refine ⟨{ himg with },
    nodup_nil, by simp, fun key => ?_, inv.accepted, inv.covered⟩
  rw [← inv.view key]
  exact congrArg (Option.map Record.value) (hlook key)

variable {s' : Session γ}

/-- A direct operation that is not refused changes the values as acknowledged. -/
lemma applyOp_spec {seq : ℕ} {op : WalOp} (himages : Images root base T s)
    (hT : ∀ key, replaces key op = true → T key) (happ : s.applyOp root seq op = some s') :
    ∃ live dirty, s' = { s with live := live, dirty := dirty } ∧ Images root base T s' ∧
      Accepted (values s.live root) op ∧
      values live root = acknowledge (values s.live root) op := by
  cases op with
  | insert key value | erase key =>
    cases happ
    exact ⟨_, _, rfl, himages.writeRecord (hT key (by simp [replaces])) _, trivial,
      values_write himages.rooted key _⟩
  | rename src dst force =>
    simp only [Session.applyOp] at happ
    split at happ <;> try contradiction
    next record hsrc =>
      have hvalue : values s.live root src = some record.value := by simp [values, hsrc]
      split_ifs at happ with heq hdst
      · cases happ
        refine ⟨_, _, rfl, himages, ⟨by simp [hvalue], fun hne => absurd heq hne⟩, ?_⟩
        simp [acknowledge, heq]
      · cases happ
        have hsrcT : T src := hT src (by simp [replaces, heq])
        have hdstT : T dst := hT dst (by simp [replaces, heq])
        have hfirst := himages.writeRecord hsrcT none
        refine ⟨_, _, rfl, hfirst.writeRecord hdstT _, ⟨by simp [hvalue], fun _ hf => ?_⟩, ?_⟩
        · have hnone : ¬ (lookupBlobs s.live root dst).isSome = true := fun h => hdst ⟨hf, h⟩
          simpa [values] using hnone
        · have hw := values_write hfirst.rooted dst (some ⟨record.value, seq⟩)
          have hw' := values_write himages.rooted src none
          simp only [acknowledge, if_neg heq, hvalue]
          refine hw.trans ?_
          change Function.update (values (PrefixForest.write s.live root (searchKey src) none) root)
            dst (some record.value) = _
          rw [hw', map_none]

lemma applyOps_spec {ops : List (ℕ × WalOp)} (himages : Images root base T s)
    (hT : ∀ op ∈ ops, ∀ key, replaces key op.2 = true → T key)
    (happ : s.applyOps root ops = some s') :
    ∃ live dirty, s' = { s with live := live, dirty := dirty } ∧ Images root base T s' ∧
      AllAccepted (values s.live root) (ops.map Prod.snd) ∧
      values live root = (ops.map Prod.snd).foldl acknowledge (values s.live root) := by
  induction ops generalizing s with
  | nil =>
    obtain rfl := Option.some.inj happ
    exact ⟨s.live, s.dirty, rfl, himages, trivial, rfl⟩
  | cons op rest ih =>
    obtain ⟨s₁, hop, hrest⟩ := bind_eq_some_iff.mp happ
    obtain ⟨live, dirty, rfl, himg, hacc, hval⟩ :=
      applyOp_spec himages (hT op mem_cons_self) hop
    obtain ⟨live', dirty', rfl, himg', hacc', hval'⟩ :=
      ih himg (forall_mem_cons.mp hT).2 hrest
    simp only [hval] at hacc' hval'
    exact ⟨live', dirty', rfl, himg', ⟨hacc, hacc'⟩, hval'⟩

lemma Inv.commit (inv : Inv root base s) {ops : List WalOp} (hpending : s.pending = [])
    (hcov : renamesCovered (loggedOps s.wal) ops = true)
    (happ : s.applyOps root (walOps [s.record ops]) = some s') :
    Inv root base (s'.logged (s.record ops) ops.length) := by
  have hops : loggedOps [s.record ops] = ops := loggedOps_record s ops
  have hwal : loggedOps (s.wal ++ [s.record ops]) = loggedOps s.wal ++ ops := by
    rw [loggedOps_append, hops]
  have himages := inv.images.mono (fun key h => h.append (s.record ops))
  have hT : ∀ op ∈ walOps [s.record ops], ∀ key, replaces key op.2 = true →
      Touched (s.wal ++ [s.record ops]) key := fun op hop key hkey =>
    touched_append_of_mem (List.mem_map_of_mem hop) hkey
  obtain ⟨live, dirty, rfl, himg, hacc, hval⟩ := applyOps_spec himages hT happ
  -- with nothing staged, readers see the blobs
  have hview : values s.live root =
      (loggedOps s.wal).foldl acknowledge (fun k => (base k).map Record.value) := by
    funext key
    have := inv.view key
    simpa [Session.view, hpending, lookupWriteDelta, values] using this
  change AllAccepted _ (loggedOps [s.record ops]) at hacc
  change _ = (loggedOps [s.record ops]).foldl acknowledge _ at hval
  rw [hops, hview] at hacc hval
  refine ⟨{ himg with },
    inv.stagedOnce, ?_, ?_, ?_, ?_⟩
  · simp [Session.logged, hpending]
  · intro key
    simp only [Session.logged, Session.view, hpending, hwal, foldl_append]
    exact congrFun hval key
  · simp only [Session.logged, hwal]
    exact allAccepted_append inv.accepted hacc
  · simp only [Session.logged, hwal]
    exact renamesCovered_append inv.covered (by simpa using hcov)

omit [DecidableEq γ] in
lemma Inv.keep (inv : Inv root base s) (himages : Images root base (Touched s.wal) s')
    (hpending : s'.pending = s.pending) (hwal : s'.wal = s.wal)
    (hlook : ∀ key, lookupBlobs s'.live root key = lookupBlobs s.live root key) :
    Inv root base s' := by
  refine ⟨hwal ▸ himages, hpending ▸ inv.stagedOnce, ?_, fun key => ?_, hwal ▸ inv.accepted,
    hwal ▸ inv.covered⟩
  · rw [hpending, hwal]
    exact inv.staged
  · rw [hwal, ← inv.view key, Session.view, Session.view, hpending, hlook]

/-- A tree at rest: a forest whose blobs are all reachable, with keys without NUL bytes. -/
structure AtRest (root : γ) (blobs : Blobs γ) (path : γ → List Byte) (allocated : List γ) :
    Prop where
  rooted : Rooted path blobs root
  known : ∀ g blob, blobs g = some blob → g ∈ allocated
  reachable : ∀ g blob k, blobs g = some blob → path g <+: k → blob.child? k = none →
    Owner blobs k root g
  nulFree : ∀ g blob key, blobs g = some blob → blob.records (searchKey key) ≠ none →
    key.NulFree

omit [DecidableEq γ] in
lemma inv_open {blobs : Blobs γ} {path : γ → List Byte} {allocated : List γ}
    (hrest : AtRest root blobs path allocated) (nextSeq : ℕ) :
    Inv root (lookupBlobs blobs root) (Session.open blobs path allocated nextSeq) := by
  have hgood : ∀ g blob, blobs g = some blob →
      GoodImage path allocated (Touched []) (lookupBlobs blobs root) g blob := by
    intro g blob hg
    refine ⟨hrest.rooted.shaped g blob hg, hrest.known g blob hg, fun p c hpc => ?_,
      fun key _ hk hnone => ?_⟩
    · obtain ⟨child, hc⟩ :=
        ne_none_iff_exists'.mp (hrest.rooted.closed g blob hg p c hpc)
      exact hrest.known c child hc
    · exact (hrest.rooted.contents_eq ((hrest.reachable g blob _ hg hk hnone).reads hg)).symm
  have hdisk : ∀ g, blobs g ≠ none → (blobs g).toList ≠ [] := by
    intro g hg
    simpa using hg
  have hdurable : ∀ g, blobs g ≠ none → (Session.open blobs path allocated nextSeq).Durable g :=
    fun g hg => ⟨hdisk g hg, not_mem_nil⟩
  refine ⟨⟨hrest.rooted, ?_, ?_, by simp [Session.open], hdurable root hrest.rooted.page,
    by simp [Session.open], by simp [Session.open]⟩, nodup_nil, by simp [Session.open],
    fun key => rfl, trivial, rfl⟩
  · rintro g blob (hlive | ⟨epoch, he, -⟩ | hmem | hmem | hmem)
    · exact hgood g blob hlive
    · simp [Session.open] at he
    · simp [Session.open] at hmem
    · simp [Session.open] at hmem
    · exact hgood g blob (mem_toList.mp hmem)
  · intro g blob hmem p c hpc
    exact hdurable c (hrest.rooted.closed g blob (mem_toList.mp hmem) p c hpc)

variable {a : Step γ}

lemma inv_writeStep (inv : Inv root base s) (hcov : RenamesCovered s a)
    (hstep : writeStep root s a = some s') : Inv root base s' := by
  cases a <;> simp only [writeStep, reduceCtorEq] at hstep
  case put key value =>
    cases hstep
    exact inv.stage 1 (.insert key value) rfl (by simp [replaces]) (by simp) (fun m => rfl)
  case delete key =>
    split_ifs at hstep with hnone
    · cases hstep
      exact inv
    · cases hstep
      exact inv.stage 1 (.erase key) rfl (by simp [replaces]) (by simp) (fun m => rfl)
  case flushWriteDelta =>
    cases hstep
    exact inv.flushWriteDelta
  case commit ops =>
    split_ifs at hstep with hpending
    obtain ⟨s₁, happ, rfl⟩ := map_eq_some_iff.mp hstep
    exact inv.commit hpending hcov.2 happ

lemma inv_shapeStep (inv : Inv root base s) (hstep : shapeStep s a = some s') :
    Inv root base s' := by
  cases a <;> simp only [shapeStep, reduceCtorEq] at hstep
  case spill g p c =>
    split at hstep <;> try contradiction
    next blob hg =>
      split_ifs at hstep with hcond
      obtain ⟨hc, hbelow, hdeeper, hun⟩ := hcond
      cases hstep
      rw [List.isPrefixOf_iff_prefix] at hbelow
      have hun' : ∀ e ∈ blob.edges, ¬ e.1 <+: p := fun e he hep => by
        have := List.all_eq_true.mp hun e he
        simp [List.isPrefixOf_iff_prefix.mpr hep] at this
      have hspill := inv.images.spillable hg hc hbelow hdeeper hun'
      have himg := inv.images.spill hspill hc
      exact inv.keep
        { himg with } rfl rfl
        (fun key => congrFun (inv.images.rooted.contents_spill hspill) (searchKey key))
  case merge g p c =>
    split at hstep <;> try contradiction
    next blob child hg hc =>
      obtain ⟨hcond, rfl⟩ := guard_eq_some.mp hstep
      have himg := inv.images.merge hg hc hcond.1
      exact inv.keep
        { himg with } rfl rfl
        (fun key => congrFun (inv.images.rooted.contents_absorb hg hc hcond.1) (searchKey key))
  case compact g =>
    obtain ⟨hg, rfl⟩ := guard_eq_some.mp hstep
    have himg := inv.images
    exact inv.keep
      { himg with } rfl rfl
      (fun _ => rfl)

lemma inv_roundStep (inv : Inv root base s) (hstep : roundStep s a = some s') :
    Inv root base s' := by
  have himages := inv.images
  -- where the images a checkpoint moves already were
  have hepochs : ∀ epoch ∈ s.epochs, ∀ e ∈ epoch, s.Holds e.1 e.2 :=
    fun epoch h e he => .inr (.inl ⟨epoch, h, he⟩)
  have hentries : ∀ e ∈ s.entries, s.Holds e.1 e.2 := fun e he => .inr (.inr (.inl he))
  have hwave : ∀ e ∈ s.wave, s.Holds e.1 e.2 :=
    fun e he => .inr (.inr (.inr (.inl he)))
  cases a <;> simp only [roundStep, reduceCtorEq] at hstep
  case capture picked =>
    obtain ⟨hcond, rfl⟩ := guard_eq_some.mp hstep
    have himg := himages.move (s.epochs ++
      [picked.filterMap (fun g => (s.live g).map (fun blob => (g, blob)))]) s.entries s.wave ?_
      hentries hwave himages.ready
    · exact inv.keep
        { himg with } rfl rfl
        (fun _ => rfl)
    · intro epoch hepoch e he
      rcases mem_append.mp hepoch with hold | hnew
      · exact hepochs epoch hold e he
      · rw [mem_singleton.mp hnew] at he
        obtain ⟨g, -, hg⟩ := mem_filterMap.mp he
        obtain ⟨blob, hlive, rfl⟩ := map_eq_some_iff.mp hg
        exact .inl hlive
  case startBatch =>
    split at hstep <;> try contradiction
    next epoch rest heq =>
      obtain ⟨hcond, rfl⟩ := guard_eq_some.mp hstep
      have himg := himages.move rest epoch s.wave
        (fun ep h e he => hepochs ep (heq ▸ mem_cons_of_mem _ h) e he)
        (fun e he => hepochs epoch (heq ▸ mem_cons_self) e he) hwave himages.ready
      exact inv.keep
        { himg with batch := by simp } rfl rfl
        (fun _ => rfl)
  case planWave =>
    obtain ⟨hcond, rfl⟩ := guard_eq_some.mp hstep
    refine inv.keep (himages.move s.epochs _ _ hepochs
      (fun e he => hentries e (mem_filter.mp he).1)
      (fun e he => hentries e (mem_filter.mp he).1) ?_) rfl rfl (fun _ => rfl)
    exact fun e he p c hpc => himages.children_of_ready hcond.2 (mem_filter.mp he).2 hpc
  case writeBlob =>
    split at hstep <;> try contradiction
    next g blob rest heq =>
      cases hstep
      have himg := himages.writeBlob heq
      exact inv.keep
        { himg with } rfl rfl
        (fun _ => rfl)
  case flushInner =>
    cases hstep
    have himg := himages.flushInner
    exact inv.keep
      { himg with } rfl rfl
      (fun _ => rfl)
  case giveUp =>
    cases hstep
    have himg := himages.move s.epochs [] [] hepochs nofun nofun nofun
    exact inv.keep
      { himg with } rfl rfl
      (fun _ => rfl)

lemma inv_step (s : Session γ) (a : Step γ) (s' : Session γ) (inv : Inv root base s)
    (hcov : RenamesCovered s a) (hstep : step root s a = some s') : Inv root base s' := by
  rw [step, or_eq_some_iff, or_eq_some_iff] at hstep
  rcases hstep with h | ⟨-, h | ⟨-, h⟩⟩
  · exact inv_writeStep inv hcov h
  · exact inv_shapeStep inv h
  · exact inv_roundStep inv h

/-! ## Recovery is exact -/

end Runs

lemma atRest_emptyRoot : AtRest 0 emptyRoot (fun _ => []) [0] := by
  have honly : ∀ g blob, emptyRoot g = some blob → g = 0 ∧ blob = ⟨fun _ => none, []⟩ := by
    intro g blob hg
    rw [emptyRoot] at hg
    split_ifs at hg with h
    exact ⟨h, (Option.some.inj hg).symm⟩
  refine ⟨⟨⟨fun g blob hg => ?_, fun g blob hg p c hpc => ?_⟩, by simp [emptyRoot], rfl⟩,
    fun g blob hg => ?_, fun g blob k hg _ hk => ?_, fun g blob key hg hrecord => ?_⟩
  · obtain ⟨rfl, rfl⟩ := honly g blob hg
    exact ⟨by simp, by simp, by simp [Apart]⟩
  · obtain ⟨rfl, rfl⟩ := honly g blob hg
    simp at hpc
  · simp [(honly g blob hg).1]
  · obtain ⟨rfl, rfl⟩ := honly g blob hg
    exact .here hg hk
  · obtain ⟨rfl, rfl⟩ := honly g blob hg
    exact absurd rfl hrecord

/-- A put, a rename by force of the key it wrote, and a round that writes the root. -/
def putThenForcedRename : List (Step ℕ) :=
  [.put [97] [1], .flushWriteDelta, .commit [.rename [97] [98] true], .capture [0], .startBatch,
    .planWave, .writeBlob, .flushInner]

end Checkpoint
end Holt
