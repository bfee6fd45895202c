import Holt.Lib.Table
import Mathlib.Order.WellFoundedSet

/-!
# Writing a checkpoint child first

`write_entries_in_dependency_order` of `checkpoint/io.rs` writes the captured images of a
checkpoint in waves: a wave is every image not yet flushed whose children are all durable, and
it ends with a flush of the store.  A child counts as durable when it was written by an earlier
wave, or when neither the batch nor the buffer manager owes a write for it and the store has it
and owes no flush.  The loop ends when a wave is empty or an image turns out to be stale, and
`commit_epoch_batch` puts what was not flushed back into the dirty map.

`Turn` is what the store and the other threads do during one turn of the loop: which blobs they
have made durable or dirtied, which calls fail, which captures are found stale, before the
write or after it.  Deletions are kept out by the `checkpoint_io` lock.  `durable` and `writes`
are not state of the code: the blobs that would survive a crash, and the images handed to the
store, each with the blobs that were durable at that moment.

`child_first_durability` is the result; `redirtied_child_defers_parent` shows why a child that
is durable is not enough for its parent to be flushed.
-/

namespace Holt
namespace Checkpoint

open Function List

variable {γ : Type} [DecidableEq γ]

/-- A captured image, as far as its order among the others matters. -/
structure Capture (γ : Type) where
  epochIdx : ℕ
  guid : γ
  expectedSeq : ℕ
  children : List γ
deriving DecidableEq

/-- `BatchEntry`. -/
structure BatchEntry (γ : Type) where
  image : Capture γ
  flushed : Bool
deriving DecidableEq

/-- The store and the other threads during one turn of the loop. -/
structure Turn (γ : Type) where
  /-- Blobs that became durable since the last turn. -/
  published : List γ
  /-- Blobs the store has but has not flushed, while it owes a flush. -/
  visible : List γ
  /-- `has_unflushed_blob`. -/
  unflushed : γ → Bool
  /-- Whether `has_blob` of the store fails. -/
  probeFails : γ → Bool
  /-- `needs_flush`. -/
  needsFlush : Bool
  writeFails : Bool
  /-- `write_snapshot_is_current` rejects the entry, which is then not written. -/
  notCurrent : ℕ → Bool
  /-- `retire_write_through` finds that the entry was overtaken while it was written. -/
  overtaken : ℕ → Bool
  flushFails : Bool

/-- An image handed to the store, with the blobs that were durable then. -/
structure ImageWrite (γ : Type) where
  image : Capture γ
  durable : List γ

structure Batch (γ : Type) where
  entries : List (BatchEntry γ)
  /-- `remaining_by_guid`; absent guids count zero. -/
  remaining : γ → ℕ
  durableThisBatch : List γ
  dirtyFlushedByEpoch : ℕ → ℕ
  durable : List γ
  writes : List (ImageWrite γ)

inductive BatchError (γ : Type)
  | io
  | missingChild (guid : γ)
  | dependencyCycle (guid : γ)
  | noProgress
deriving DecidableEq

/-- How the loop ends: `BatchWriteReport` with its `deferred`, or an error. -/
inductive BatchOutcome (γ : Type)
  | report (deferred : Bool)
  | failed (e : BatchError γ)
deriving DecidableEq

section Loop

variable (turn : Turn γ) (b : Batch γ)

/-- `store_has_blob`. -/
def storeHasBlob (g : γ) : Bool :=
  decide (g ∈ b.durable) || (turn.needsFlush && decide (g ∈ turn.visible))

/-- `children_ready`. -/
def childrenReady : List γ → Except (BatchError γ) Bool
  | [] => .ok true
  | child :: rest =>
    if child ∈ b.durableThisBatch then childrenReady rest
    else if b.remaining child ≠ 0 ∨ turn.unflushed child then .ok false
    else if turn.probeFails child then .error .io
    else if storeHasBlob turn b child && !turn.needsFlush then childrenReady rest
    else .ok false

/-- The indices of the next wave. -/
def readyFrom : ℕ → List (BatchEntry γ) → Except (BatchError γ) (List ℕ)
  | _, [] => .ok []
  | i, entry :: rest =>
    if entry.flushed then readyFrom (i + 1) rest
    else
      match childrenReady turn b entry.image.children with
      | .error e => .error e
      | .ok ready =>
        match readyFrom (i + 1) rest with
        | .error e => .error e
        | .ok wave => .ok (if ready then i :: wave else wave)

/-- Whether a child of the entry `guid` outside the batch is only late, or missing. -/
def externalTransient (guid : γ) : List γ → Except (BatchError γ) Bool
  | [] => .ok false
  | child :: rest =>
    if child ∈ b.durableThisBatch ∨ b.remaining child ≠ 0 then externalTransient guid rest
    else if turn.unflushed child then (externalTransient guid rest).map (fun _ => true)
    else if turn.probeFails child then .error .io
    else if storeHasBlob turn b child then
      (externalTransient guid rest).map (fun late => late || turn.needsFlush)
    else .error (.missingChild guid)

/-- `externalTransient` over all unflushed entries. -/
def anyTransient : List (BatchEntry γ) → Except (BatchError γ) Bool
  | [] => .ok false
  | entry :: rest =>
    if entry.flushed then anyTransient rest
    else
      match externalTransient turn b entry.image.guid entry.image.children with
      | .error e => .error e
      | .ok late => (anyTransient rest).map (fun more => late || more)

/-- The children an unflushed entry waits for inside the batch. -/
def waitsFor (guid child : γ) : Bool :=
  b.entries.any (fun entry => !entry.flushed && decide (entry.image.guid = guid) &&
    decide (child ∈ entry.image.children)) &&
    decide (child ∉ b.durableThisBatch) && decide (b.remaining child ≠ 0)

/-- `dependency_cycle`: take away the blobs nobody left waits for, as often as there are blobs;
what stays lies on a cycle or below one. -/
def dependencyCycle : ℕ → List γ → Option γ
  | 0, left => left.head?
  | n + 1, left =>
    dependencyCycle n (left.filter (fun g => left.any (fun p => waitsFor b p g)))

/-- `validate_no_progress_dependencies`: an error, or a stall that may be retried. -/
def validateNoProgressDependencies : Except (BatchError γ) Unit :=
  match anyTransient turn b b.entries with
  | .error e => .error e
  | .ok late =>
    let nodes := ((b.entries.filter (fun e => !e.flushed)).map (fun e => e.image.guid)).dedup
    match dependencyCycle b nodes.length nodes with
    | some guid => .error (.dependencyCycle guid)
    | none => if late then .ok () else .error .noProgress

/-- The entries at some indices. -/
def entriesAt (idxs : List ℕ) : List (BatchEntry γ) := idxs.filterMap (fun i => b.entries[i]?)

/-- Hand the images of the entries to the store. -/
def Batch.write (idxs : List ℕ) : Batch γ :=
  { b with writes := b.writes ++ (entriesAt b idxs).map (fun e => ⟨e.image, b.durable⟩) }

/-- `flush_inner` after the images of the entries were written. -/
def Batch.flush (idxs : List ℕ) : Batch γ :=
  { b with durable := b.durable ++ (entriesAt b idxs).map (fun e => e.image.guid) }

/-- The bookkeeping for one written entry. -/
def Batch.retire (i : ℕ) : Batch γ :=
  match b.entries[i]? with
  | none => b
  | some entry =>
    { b with
      entries := b.entries.set i { entry with flushed := true }
      remaining := Function.update b.remaining entry.image.guid (b.remaining entry.image.guid - 1)
      durableThisBatch := entry.image.guid :: b.durableThisBatch
      dirtyFlushedByEpoch := Function.update b.dirtyFlushedByEpoch entry.image.epochIdx
        (b.dirtyFlushedByEpoch entry.image.epochIdx + 1) }

/-- The entries of a wave that are written. -/
def Turn.current (wave : List ℕ) : List ℕ := wave.filter (fun i => !turn.notCurrent i)

/-- The entries of a wave whose status is `Written`. -/
def Turn.written (wave : List ℕ) : List ℕ :=
  (turn.current wave).filter (fun i => !turn.overtaken i)

end Loop

/-- The loop of `write_entries_in_dependency_order`, from turn `n` on; `none` if the fuel runs
out. -/
def waveLoop (env : ℕ → Turn γ) : ℕ → ℕ → Batch γ → Option (Batch γ × BatchOutcome γ)
  | 0, _, _ => none
  | fuel + 1, n, b₀ =>
    let turn := env n
    let b := { b₀ with durable := b₀.durable ++ turn.published }
    match readyFrom turn b 0 b.entries with
    | .error e => some (b, .failed e)
    | .ok [] =>
      if b.entries.any (fun e => !e.flushed) then
        match validateNoProgressDependencies turn b with
        | .error e => some (b, .failed e)
        | .ok () => some (b, .report true)
      else some (b, .report false)
    | .ok (i :: wave) =>
      let current := turn.current (i :: wave)
      let written := turn.written (i :: wave)
      let b₁ := b.write current
      if turn.writeFails ∨ turn.flushFails then some (b₁, .failed .io)
      else
        let b₂ := written.foldl Batch.retire (b₁.flush current)
        if written.length < (i :: wave).length then some (b₂, .report true)
        else waveLoop env fuel (n + 1) b₂

/-- The batch before the first wave. -/
def Batch.start (captured : List (Capture γ)) (durable : List γ) : Batch γ where
  entries := captured.map (fun image => ⟨image, false⟩)
  remaining := fun g => captured.countP (fun image => decide (image.guid = g))
  durableThisBatch := []
  dirtyFlushedByEpoch := fun _ => 0
  durable := durable
  writes := []

/-- `write_entries_in_dependency_order`: the flush a store may owe comes first. -/
def writeEntriesInDependencyOrder (env : ℕ → Turn γ) (fuel : ℕ) (owesFlush flushFails : Bool)
    (captured : List (Capture γ)) (durable : List γ) : Option (Batch γ × BatchOutcome γ) :=
  if owesFlush ∧ flushFails then some (Batch.start captured durable, .failed .io)
  else waveLoop env fuel 0 (Batch.start captured durable)

/-! ## The dirty map afterwards -/

/-- The entries to restore: the last sequence number of each blob among them. -/
def owedBy (entries : List (BatchEntry γ)) (g : γ) : Option ℕ :=
  ((entries.filter (fun e => decide (e.image.guid = g))).getLast?).map
    (fun e => e.image.expectedSeq)

/-- `restore_dirty`: a blob that was logically deleted in the meantime is dropped. -/
def restoreDirty (fenced : γ → Bool) (dirty : γ → Option ℕ) (owed : γ → Option ℕ) (g : γ) :
    Option ℕ :=
  match owed g with
  | none => dirty g
  | some seq =>
    if fenced g then dirty g
    else some (match dirty g with | some cur => min cur seq | none => seq)

/-- What `commit_epoch_batch` restores. -/
def BatchOutcome.restores (outcome : BatchOutcome γ) (b : Batch γ) : List (BatchEntry γ) :=
  match outcome with
  | .failed _ => b.entries
  | .report true => b.entries.filter (fun e => !e.flushed)
  | .report false => []

/-- Whether the report of `commit_epoch_batch` counts an entry as flushed: an error reports
none. -/
def BatchOutcome.reportsFlushed (outcome : BatchOutcome γ) (e : BatchEntry γ) : Bool :=
  match outcome with
  | .failed _ => false
  | .report _ => e.flushed

/-! ## What a turn keeps -/

section Invariant

variable {turn : Turn γ} {b : Batch γ} {captured : List (Capture γ)}

/-- The entries not yet flushed. -/
def Batch.pending (b : Batch γ) : ℕ := b.entries.countP (fun e => !e.flushed)

/-- The bookkeeping of the loop is exact, what it has flushed is durable, and every image was
written after its children. -/
structure Batch.Sound (b : Batch γ) (captured : List (Capture γ)) : Prop where
  images : b.entries.map BatchEntry.image = captured
  remaining : ∀ g, b.remaining g =
    b.entries.countP (fun e => !e.flushed && decide (e.image.guid = g))
  flushedHere : ∀ e ∈ b.entries, e.flushed = true → e.image.guid ∈ b.durableThisBatch
  durableHere : ∀ g ∈ b.durableThisBatch, g ∈ b.durable
  childFirst : ∀ w ∈ b.writes, ∀ c ∈ w.image.children, c ∈ w.durable

lemma sound_start (captured : List (Capture γ)) (durable : List γ) :
    (Batch.start captured durable).Sound captured where
  images := by
    simp only [Batch.start, List.map_map]
    exact List.map_id captured
  remaining := by
    intro g
    simp [Batch.start, countP_map, comp_def]
  flushedHere := by simp [Batch.start]
  durableHere := by simp [Batch.start]
  childFirst := by simp [Batch.start]

lemma pending_start (captured : List (Capture γ)) (durable : List γ) :
    (Batch.start captured durable).pending = captured.length := by
  simp [Batch.pending, Batch.start, countP_map, comp_def]

lemma Batch.Sound.publish (hs : b.Sound captured) (published : List γ) :
    Batch.Sound { b with durable := b.durable ++ published } captured :=
  { hs with durableHere := fun g hg => mem_append_left _ (hs.durableHere g hg) }

lemma childrenReady_inv {children : List γ} (h : childrenReady turn b children = .ok true) :
    ∀ c ∈ children, c ∈ b.durableThisBatch ∨ c ∈ b.durable := by
  induction children with
  | nil => simp
  | cons child rest ih =>
    rw [childrenReady] at h
    refine forall_mem_cons.mpr ?_
    by_cases hhere : child ∈ b.durableThisBatch
    · rw [if_pos hhere] at h
      exact ⟨.inl hhere, ih h⟩
    · rw [if_neg hhere] at h
      by_cases howed : b.remaining child ≠ 0 ∨ turn.unflushed child = true
      · rw [if_pos howed] at h
        cases h
      · rw [if_neg howed] at h
        by_cases hprobe : turn.probeFails child = true
        · rw [if_pos hprobe] at h
          cases h
        · rw [if_neg hprobe] at h
          by_cases hstore : (storeHasBlob turn b child && !turn.needsFlush) = true
          · rw [if_pos hstore] at h
            refine ⟨.inr ?_, ih h⟩
            -- a store that owes no flush has only durable blobs
            simp only [storeHasBlob, Bool.and_eq_true, Bool.or_eq_true, decide_eq_true_eq,
              Bool.not_eq_true'] at hstore
            rcases hstore.1 with hdurable | hvisible
            · exact hdurable
            · simp [hstore.2] at hvisible
          · rw [if_neg hstore] at h
            cases h

/-- The wave holds indices of unflushed entries whose children are ready, in order. -/
lemma readyFrom_inv {entries : List (BatchEntry γ)} {k : ℕ} {wave : List ℕ}
    (h : readyFrom turn b k entries = .ok wave) :
    wave.Pairwise (· < ·) ∧ ∀ i ∈ wave, k ≤ i ∧ ∃ e, entries[i - k]? = some e ∧
      e.flushed = false ∧ childrenReady turn b e.image.children = .ok true := by
  induction entries generalizing k wave with
  | nil =>
    obtain rfl : [] = wave := by simpa [readyFrom] using h
    simp
  | cons entry rest ih =>
    -- an index of the rest is one of the whole list, one further
    have hshift : ∀ wave', readyFrom turn b (k + 1) rest = .ok wave' → ∀ i ∈ wave', k + 1 ≤ i ∧
        ∃ e, (entry :: rest)[i - k]? = some e ∧ e.flushed = false ∧
          childrenReady turn b e.image.children = .ok true := by
      intro wave' hrest i hi
      obtain ⟨hle, e, he, hready⟩ := (ih hrest).2 i hi
      refine ⟨hle, e, ?_, hready⟩
      have hsub : i - k = (i - (k + 1)) + 1 := by omega
      rw [hsub, getElem?_cons_succ]
      exact he
    rw [readyFrom] at h
    by_cases hflushed : entry.flushed = true
    · rw [if_pos hflushed] at h
      refine ⟨(ih h).1, fun i hi => ?_⟩
      obtain ⟨hle, hentry⟩ := hshift wave h i hi
      exact ⟨by omega, hentry⟩
    · rw [if_neg hflushed] at h
      cases hready : childrenReady turn b entry.image.children with
      | error e => simp [hready] at h
      | ok ready =>
        cases hrest : readyFrom turn b (k + 1) rest with
        | error e => simp [hready, hrest] at h
        | ok wave' =>
          simp only [hready, hrest, Except.ok.injEq] at h
          subst h
          have hlater : ∀ i ∈ wave', k ≤ i ∧ ∃ e, (entry :: rest)[i - k]? = some e ∧
              e.flushed = false ∧ childrenReady turn b e.image.children = .ok true := by
            intro i hi
            obtain ⟨hle, hentry⟩ := hshift wave' hrest i hi
            exact ⟨by omega, hentry⟩
          cases ready with
          | false => exact ⟨(ih hrest).1, hlater⟩
          | true =>
            refine ⟨pairwise_cons.mpr ⟨fun i hi => ?_, (ih hrest).1⟩,
              forall_mem_cons.mpr ⟨⟨le_rfl, entry, ?_, ?_, hready⟩, hlater⟩⟩
            · exact (hshift wave' hrest i hi).1
            · simp
            · simpa using hflushed

lemma Batch.Sound.retire (hs : b.Sound captured) {i : ℕ} {e : BatchEntry γ}
    (hi : b.entries[i]? = some e) (hflushed : e.flushed = false)
    (hdurable : e.image.guid ∈ b.durable) :
    (b.retire i).Sound captured ∧ (b.retire i).pending + 1 = b.pending ∧
      (b.retire i).durable = b.durable ∧ (b.retire i).writes = b.writes ∧
      ∀ j, j ≠ i → (b.retire i).entries[j]? = b.entries[j]? := by
  have hretire : b.retire i = { b with
      entries := b.entries.set i { e with flushed := true }
      remaining := update b.remaining e.image.guid (b.remaining e.image.guid - 1)
      durableThisBatch := e.image.guid :: b.durableThisBatch
      dirtyFlushedByEpoch := update b.dirtyFlushedByEpoch e.image.epochIdx
        (b.dirtyFlushedByEpoch e.image.epochIdx + 1) } := by
    simp only [Batch.retire, hi]
  rw [hretire]
  refine ⟨⟨?_, fun g => ?_, fun x hx hxf => ?_, fun g hg => ?_, hs.childFirst⟩, ?_, rfl, rfl,
    fun j hj => getElem?_set_ne (Ne.symm hj)⟩
  · have hset : (b.entries.map BatchEntry.image).set i e.image =
        b.entries.map BatchEntry.image := by
      obtain ⟨hlt, rfl⟩ := List.getElem?_eq_some_iff.mp hi
      exact ext_getElem (by simp) fun k _ _ => by
        by_cases hk : i = k
        · subst hk
          simp
        · simp [hk]
    rw [map_set, hset]
    exact hs.images
  · have hold := hs.remaining g
    by_cases hg : g = e.image.guid
    · subst hg
      have hend := Table.countP_set_of_end (y := { e with flushed := true })
        (p := fun x : BatchEntry γ => !x.flushed && decide (x.image.guid = e.image.guid)) hi
        (by simp [hflushed]) (by simp)
      simp only [update_self]
      omega
    · have hsame := Table.countP_set_of_eq (y := { e with flushed := true })
        (p := fun x : BatchEntry γ => !x.flushed && decide (x.image.guid = g)) hi
        (by simp [Ne.symm hg])
      simp only [update_of_ne hg]
      omega
  · obtain ⟨k, hk⟩ := mem_iff_getElem?.mp hx
    rcases Table.getElem?_set_cases hk with ⟨-, rfl⟩ | ⟨-, hk⟩
    · exact mem_cons_self
    · exact mem_cons_of_mem _ (hs.flushedHere x (mem_of_getElem? hk) hxf)
  · rcases mem_cons.mp hg with rfl | hg
    · exact hdurable
    · exact hs.durableHere g hg
  · exact Table.countP_set_of_end hi (by simp [hflushed]) (by simp)

lemma Batch.Sound.retireAll {idxs : List ℕ} (hs : b.Sound captured) (hnodup : idxs.Nodup)
    (hentries : ∀ i ∈ idxs, ∃ e, b.entries[i]? = some e ∧ e.flushed = false ∧
      e.image.guid ∈ b.durable) :
    (idxs.foldl Batch.retire b).Sound captured ∧
      (idxs.foldl Batch.retire b).pending + idxs.length = b.pending ∧
      (idxs.foldl Batch.retire b).durable = b.durable := by
  induction idxs generalizing b with
  | nil => exact ⟨hs, rfl, rfl⟩
  | cons i idxs ih =>
    obtain ⟨hnotMem, hnodup⟩ := nodup_cons.mp hnodup
    obtain ⟨⟨e, hi, hflushed, hdurable⟩, hrest⟩ := forall_mem_cons.mp hentries
    obtain ⟨hsound, hpending, hdur, -, hother⟩ := hs.retire hi hflushed hdurable
    have hlater : ∀ j ∈ idxs, ∃ e, (b.retire i).entries[j]? = some e ∧ e.flushed = false ∧
        e.image.guid ∈ (b.retire i).durable := by
      intro j hj
      have hne : j ≠ i := fun heq => hnotMem (heq ▸ hj)
      rw [hother j hne, hdur]
      exact hrest j hj
    obtain ⟨hsound', hpending', hdur'⟩ := ih hsound hnodup hlater
    refine ⟨hsound', ?_, hdur'.trans hdur⟩
    rw [foldl_cons, length_cons]
    omega

lemma Batch.Sound.write (hs : b.Sound captured) {wave : List ℕ}
    (hwave : readyFrom turn b 0 b.entries = .ok wave) :
    (b.write (turn.current wave)).Sound captured := by
  refine { hs with childFirst := fun w hw => ?_ }
  rcases mem_append.mp hw with hw | hw
  · exact hs.childFirst w hw
  · obtain ⟨e, he, rfl⟩ := List.mem_map.mp hw
    obtain ⟨i, hi, hie⟩ := mem_filterMap.mp he
    obtain ⟨-, e', he', -, hready⟩ := (readyFrom_inv hwave).2 i (mem_of_mem_filter hi)
    cases he'.symm.trans hie
    intro c hc
    exact (childrenReady_inv hready c hc).elim (hs.durableHere c) id

lemma Batch.Sound.wave (hs : b.Sound captured) {wave : List ℕ}
    (hwave : readyFrom turn b 0 b.entries = .ok wave) :
    let b' := (turn.written wave).foldl Batch.retire
      ((b.write (turn.current wave)).flush (turn.current wave))
    b'.Sound captured ∧ b'.pending + (turn.written wave).length = b.pending ∧
      ∀ g ∈ b.durable, g ∈ b'.durable := by
  intro b'
  obtain ⟨hsorted, hentries⟩ := readyFrom_inv hwave
  have hflushed : ((b.write (turn.current wave)).flush (turn.current wave)).Sound captured :=
    (hs.write hwave).publish _
  have hnodup : (turn.written wave).Nodup :=
    ((hsorted.imp (fun h => Nat.ne_of_lt h)).filter _).filter _
  obtain ⟨hsound, hpending, hdurable⟩ := hflushed.retireAll hnodup fun i hi => by
    have hcurrent : i ∈ turn.current wave := mem_of_mem_filter hi
    obtain ⟨-, e, he, hunflushed, -⟩ := hentries i (mem_of_mem_filter hcurrent)
    refine ⟨e, he, hunflushed, mem_append_right _ ?_⟩
    exact List.mem_map.mpr ⟨e, mem_filterMap.mpr ⟨i, hcurrent, he⟩, rfl⟩
  refine ⟨hsound, hpending, fun g hg => ?_⟩
  rw [show b'.durable = _ from hdurable]
  exact mem_append_left _ hg

/-- The loop ends, and keeps the books; a report that defers nothing has flushed all. -/
lemma waveLoop_sound (env : ℕ → Turn γ) {fuel n : ℕ} {b : Batch γ} (hs : b.Sound captured)
    (hfuel : b.pending < fuel) :
    ∃ b' outcome, waveLoop env fuel n b = some (b', outcome) ∧ b'.Sound captured ∧
      (outcome = .report false → ∀ e ∈ b'.entries, e.flushed = true) := by
  induction fuel generalizing n b with
  | zero => omega
  | succ fuel ih =>
    have hpub := hs.publish (env n).published
    rw [waveLoop]
    generalize hb : { b with durable := b.durable ++ (env n).published } = b₀ at hpub ⊢
    have hpending : b₀.pending = b.pending := by rw [← hb]; rfl
    dsimp only
    cases hwave : readyFrom (env n) b₀ 0 b₀.entries with
    | error e => exact ⟨b₀, .failed e, rfl, hpub, by simp⟩
    | ok wave =>
      cases wave with
      | nil =>
        dsimp only
        by_cases hany : b₀.entries.any (fun e => !e.flushed) = true
        · rw [if_pos hany]
          cases validateNoProgressDependencies (env n) b₀ with
          | error e => exact ⟨b₀, .failed e, rfl, hpub, by simp⟩
          | ok _ => exact ⟨b₀, .report true, rfl, hpub, by simp⟩
        · rw [if_neg hany]
          exact ⟨b₀, .report false, rfl, hpub, fun _ => by simpa using hany⟩
      | cons i wave =>
        dsimp only
        by_cases hfails : (env n).writeFails = true ∨ (env n).flushFails = true
        · rw [if_pos hfails]
          exact ⟨_, .failed .io, rfl, hpub.write hwave, by simp⟩
        · rw [if_neg hfails]
          obtain ⟨hsound, hless, -⟩ := hpub.wave hwave
          by_cases hstale : ((env n).written (i :: wave)).length < (i :: wave).length
          · rw [if_pos hstale]
            exact ⟨_, .report true, rfl, hsound, by simp⟩
          · rw [if_neg hstale]
            -- the whole wave was written, so fewer entries are left
            rw [length_cons] at hstale
            exact ih hsound (by omega)

end Invariant

/-! ## What is not reported as flushed stays dirty -/

lemma owedBy_isSome {entries : List (BatchEntry γ)} {e : BatchEntry γ} (he : e ∈ entries) :
    (owedBy entries e.image.guid).isSome = true := by
  have hmem : e ∈ entries.filter (fun x => decide (x.image.guid = e.image.guid)) := by
    simp [he]
  simp only [owedBy, Option.isSome_map, getLast?_isSome]
  exact ne_nil_of_mem hmem

omit [DecidableEq γ] in
lemma restoreDirty_isSome {fenced : γ → Bool} {dirty owed : γ → Option ℕ} {g : γ}
    (howed : (owed g).isSome = true) (hfence : fenced g = false) :
    (restoreDirty fenced dirty owed g).isSome = true := by
  obtain ⟨seq, hseq⟩ := Option.isSome_iff_exists.mp howed
  simp [restoreDirty, hseq, hfence]

omit [DecidableEq γ] in
/-- Every entry that the outcome does not report is among the restored ones. -/
lemma BatchOutcome.mem_restores {outcome : BatchOutcome γ} {b : Batch γ}
    (hall : outcome = .report false → ∀ e ∈ b.entries, e.flushed = true) {e : BatchEntry γ}
    (he : e ∈ b.entries) (hreport : outcome.reportsFlushed e = false) :
    e ∈ outcome.restores b := by
  match outcome with
  | .failed _ => exact he
  | .report true => exact mem_filter.mpr ⟨he, by simpa [BatchOutcome.reportsFlushed] using hreport⟩
  | .report false =>
    have hflushed := hall rfl e he
    simp only [BatchOutcome.reportsFlushed, hflushed] at hreport
    cases hreport

/-! ## Batches without cycles -/

section Complete

variable {env : ℕ → Turn γ} {captured : List (Capture γ)} {durable : List γ}

/-- `child` is referenced by the image of `parent`, and both were captured. -/
def References (captured : List (Capture γ)) (child parent : γ) : Prop :=
  child ∈ captured.map Capture.guid ∧
    ∃ image ∈ captured, image.guid = parent ∧ child ∈ image.children

/-- The references among the captured images have no cycle. -/
def Acyclic (captured : List (Capture γ)) : Prop :=
  ∀ g, ¬ Relation.TransGen (References captured) g g

/-- A turn in which no call fails, no capture is stale and the store owes no flush. -/
structure Turn.Clean (turn : Turn γ) : Prop where
  needsFlush : turn.needsFlush = false
  probes : ∀ g, turn.probeFails g = false
  writes : turn.writeFails = false
  current : ∀ i, turn.notCurrent i = false
  retired : ∀ i, turn.overtaken i = false
  flushes : turn.flushFails = false

/-- A turn in which nothing else happens. -/
def Turn.quiet : Turn γ where
  published := []
  visible := []
  unflushed := fun _ => false
  probeFails := fun _ => false
  needsFlush := false
  writeFails := false
  notCurrent := fun _ => false
  overtaken := fun _ => false
  flushFails := false

omit [DecidableEq γ] in
lemma Turn.clean_quiet : (Turn.quiet : Turn γ).Clean :=
  ⟨rfl, fun _ => rfl, rfl, fun _ => rfl, fun _ => rfl, rfl⟩

/-- The children outside the batch are durable and not dirty again. -/
def OutsideDurable (env : ℕ → Turn γ) (captured : List (Capture γ)) (durable : List γ) : Prop :=
  ∀ image ∈ captured, ∀ c ∈ image.children, c ∉ captured.map Capture.guid →
    c ∈ durable ∧ ∀ n, (env n).unflushed c = false

variable {turn : Turn γ}

omit [DecidableEq γ] in
lemma Turn.Clean.written_eq (hc : turn.Clean) (wave : List ℕ) : turn.written wave = wave := by
  simp [Turn.written, Turn.current, hc.current, hc.retired]

/-- Without failing calls `children_ready` answers. -/
lemma Turn.Clean.childrenReady_ok (hc : turn.Clean) (b : Batch γ) (children : List γ) :
    ∃ ready, childrenReady turn b children = .ok ready := by
  induction children with
  | nil => exact ⟨true, rfl⟩
  | cons child rest ih =>
    rw [childrenReady, if_neg (c := turn.probeFails child = true) (by simp [hc.probes])]
    split_ifs
    · exact ih
    · exact ⟨false, rfl⟩
    · exact ih
    · exact ⟨false, rfl⟩

variable {b : Batch γ}

/-- Children that are durable, and owed by nobody, are ready. -/
lemma Turn.Clean.childrenReady_true (hc : turn.Clean) {children : List γ}
    (h : ∀ c ∈ children, c ∈ b.durableThisBatch ∨
      b.remaining c = 0 ∧ turn.unflushed c = false ∧ c ∈ b.durable) :
    childrenReady turn b children = .ok true := by
  induction children with
  | nil => rfl
  | cons child rest ih =>
    obtain ⟨hchild, hrest⟩ := forall_mem_cons.mp h
    rw [childrenReady]
    by_cases hhere : child ∈ b.durableThisBatch
    · rw [if_pos hhere]
      exact ih hrest
    · obtain ⟨hzero, hclean, hdurable⟩ := hchild.resolve_left hhere
      rw [if_neg hhere, if_neg (by simp [hzero, hclean]), if_neg (by simp [hc.probes]),
        if_pos (by simp [storeHasBlob, hdurable, hc.needsFlush])]
      exact ih hrest

/-- The wave holds every unflushed entry whose children are ready. -/
lemma Turn.Clean.readyFrom_ok (hc : turn.Clean) (entries : List (BatchEntry γ)) (k : ℕ) :
    ∃ wave, readyFrom turn b k entries = .ok wave ∧
      ((∃ e ∈ entries, e.flushed = false ∧
        childrenReady turn b e.image.children = .ok true) → wave ≠ []) := by
  induction entries generalizing k with
  | nil => exact ⟨[], rfl, by simp⟩
  | cons entry rest ih =>
    obtain ⟨wave, hwave, hne⟩ := ih (k + 1)
    rw [readyFrom]
    by_cases hflushed : entry.flushed = true
    · rw [if_pos hflushed]
      refine ⟨wave, hwave, ?_⟩
      rintro ⟨e, he, hunflushed, hready⟩
      rcases mem_cons.mp he with rfl | he
      · simp [hflushed] at hunflushed
      · exact hne ⟨e, he, hunflushed, hready⟩
    · rw [if_neg hflushed]
      obtain ⟨ready, hentry⟩ := hc.childrenReady_ok b entry.image.children
      rw [hentry, hwave]
      refine ⟨_, rfl, ?_⟩
      cases ready with
      | true => simp
      | false =>
        rintro ⟨e, he, hunflushed, hready⟩
        rcases mem_cons.mp he with rfl | he
        · simp [hentry] at hready
        · simpa using hne ⟨e, he, hunflushed, hready⟩

omit [DecidableEq γ] in
/-- In an acyclic batch some unflushed entry has no unflushed child. -/
lemma Batch.exists_minimal (b : Batch γ) (hacyclic : Acyclic captured)
    (hleft : ∃ e ∈ b.entries, e.flushed = false) :
    ∃ e ∈ b.entries, e.flushed = false ∧ ∀ x ∈ b.entries, x.flushed = false →
      ¬ References captured x.image.guid e.image.guid := by
  let left : Set γ := {g | ∃ e ∈ b.entries, e.flushed = false ∧ e.image.guid = g}
  have hfinite : left.Finite := by
    refine (b.entries.map (fun e => e.image.guid)).finite_toSet.subset ?_
    rintro g ⟨e, he, -, rfl⟩
    exact List.mem_map.mpr ⟨e, he, rfl⟩
  -- reachability is a strict order, and a finite set has a least element for it
  have : IsStrictOrder γ (Relation.TransGen (References captured)) :=
    { irrefl := hacyclic, trans := fun _ _ _ => Relation.TransGen.trans }
  have hwf := hfinite.wellFoundedOn (r := Relation.TransGen (References captured))
  obtain ⟨e₀, he₀, hunflushed₀⟩ := hleft
  obtain ⟨m, hm, hmin⟩ := hwf.has_min Set.univ
    ⟨⟨e₀.image.guid, e₀, he₀, hunflushed₀, rfl⟩, trivial⟩
  obtain ⟨e, he, hunflushed, hguid⟩ := m.2
  refine ⟨e, he, hunflushed, fun x hx hxu href => ?_⟩
  rw [hguid] at href
  exact hmin ⟨x.image.guid, x, hx, hxu, rfl⟩ trivial (Relation.TransGen.single href)

/-- In an acyclic batch with clean turns a wave is empty only when nothing is left. -/
lemma Batch.Sound.wave_ne_nil (hs : b.Sound captured) (hc : turn.Clean)
    (hacyclic : Acyclic captured)
    (houtside : ∀ image ∈ captured, ∀ c ∈ image.children, c ∉ captured.map Capture.guid →
      c ∈ b.durable ∧ turn.unflushed c = false) (hleft : ∃ e ∈ b.entries, e.flushed = false) :
    ∃ e ∈ b.entries, e.flushed = false ∧
      childrenReady turn b e.image.children = .ok true := by
  obtain ⟨e, he, hunflushed, hmin⟩ := b.exists_minimal hacyclic hleft
  have hcaptured : ∀ x ∈ b.entries, x.image ∈ captured := fun x hx =>
    hs.images ▸ List.mem_map.mpr ⟨x, hx, rfl⟩
  refine ⟨e, he, hunflushed, hc.childrenReady_true fun c hc' => ?_⟩
  by_cases hinside : c ∈ captured.map Capture.guid
  · left
    -- some entry holds the child, and it is flushed because `e` is minimal
    obtain ⟨image, himage, rfl⟩ := List.mem_map.mp hinside
    obtain ⟨x, hx, rfl⟩ := List.mem_map.mp (hs.images ▸ himage)
    refine hs.flushedHere x hx ?_
    by_contra hxu
    exact hmin x hx (by simpa using hxu) ⟨hinside, e.image, hcaptured e he, rfl, hc'⟩
  · right
    obtain ⟨hdurable, hclean⟩ := houtside e.image (hcaptured e he) c hc' hinside
    refine ⟨?_, hclean, hdurable⟩
    rw [hs.remaining, countP_eq_zero]
    intro x hx hguid
    simp only [Bool.and_eq_true, decide_eq_true_eq] at hguid
    exact hinside (hguid.2 ▸ List.mem_map.mpr ⟨x.image, hcaptured x hx, rfl⟩)

lemma waveLoop_complete {fuel n : ℕ} (hs : b.Sound captured) (hfuel : b.pending < fuel)
    (hclean : ∀ n, (env n).Clean) (hacyclic : Acyclic captured)
    (houtside : OutsideDurable env captured durable) (hdurable : ∀ g ∈ durable, g ∈ b.durable) :
    ∃ b', waveLoop env fuel n b = some (b', .report false) := by
  induction fuel generalizing n b with
  | zero => omega
  | succ fuel ih =>
    have hpub := hs.publish (env n).published
    rw [waveLoop]
    generalize hb : { b with durable := b.durable ++ (env n).published } = b₀ at hpub ⊢
    have hpending : b₀.pending = b.pending := by rw [← hb]; rfl
    have hdurable₀ : ∀ g ∈ durable, g ∈ b₀.durable := fun g hg => by
      rw [← hb]
      exact mem_append_left _ (hdurable g hg)
    obtain ⟨wave, hwave, hne⟩ := (hclean n).readyFrom_ok (b := b₀) b₀.entries 0
    dsimp only
    rw [hwave]
    cases wave with
    | nil =>
      dsimp only
      rw [if_neg]
      · exact ⟨b₀, rfl⟩
      · intro hany
        refine hne (hpub.wave_ne_nil (hclean n) hacyclic ?_ (by simpa using hany)) rfl
        intro image himage c hc hc'
        obtain ⟨hdur, hnot⟩ := houtside image himage c hc hc'
        exact ⟨hdurable₀ c hdur, hnot n⟩
    | cons i wave =>
      dsimp only
      obtain ⟨hsound, hless, hkept⟩ := hpub.wave hwave
      rw [if_neg (by simp [(hclean n).writes, (hclean n).flushes]),
        if_neg (by simp [(hclean n).written_eq])]
      refine ih hsound ?_ fun g hg => hkept g (hdurable₀ g hg)
      rw [(hclean n).written_eq, length_cons] at hless
      rw [(hclean n).written_eq]
      omega

end Complete

/-- For every run of `write_entries_in_dependency_order`, whatever the store and the other
threads do: the loop ends; no image is handed to the store before all its children are durable;
every entry that is not reported as flushed, unless its blob was logically deleted, is in the
dirty map afterwards.  And if the captured references have no cycle, every child outside the
batch is durable and not dirty again, and no turn brings a failure, a stale capture or a store
that owes a flush, then all entries are flushed. -/
theorem child_first_durability (env : ℕ → Turn γ) (owesFlush flushFails : Bool)
    (captured : List (Capture γ)) (durable : List γ) (fenced : γ → Bool)
    (dirty : γ → Option ℕ) :
    ∃ b outcome, writeEntriesInDependencyOrder env (captured.length + 1) owesFlush flushFails
        captured durable = some (b, outcome) ∧
      b.entries.map BatchEntry.image = captured ∧
      (∀ w ∈ b.writes, ∀ c ∈ w.image.children, c ∈ w.durable) ∧
      (∀ e ∈ b.entries, outcome.reportsFlushed e = true → e.image.guid ∈ b.durable) ∧
      (∀ e ∈ b.entries, outcome.reportsFlushed e = false → fenced e.image.guid = false →
        (restoreDirty fenced dirty (owedBy (outcome.restores b)) e.image.guid).isSome = true) ∧
      (Acyclic captured → OutsideDurable env captured durable → (∀ n, (env n).Clean) →
        flushFails = false →
        outcome = .report false ∧ ∀ e ∈ b.entries, outcome.reportsFlushed e = true) := by
  have hstart := sound_start captured durable
  have hfuel : (Batch.start captured durable).pending < captured.length + 1 := by
    rw [pending_start]
    omega
  have hdirty : ∀ (b : Batch γ) (outcome : BatchOutcome γ),
      (outcome = .report false → ∀ e ∈ b.entries, e.flushed = true) →
      ∀ e ∈ b.entries, outcome.reportsFlushed e = false → fenced e.image.guid = false →
        (restoreDirty fenced dirty (owedBy (outcome.restores b)) e.image.guid).isSome = true :=
    fun b outcome hall e he hreport hfence =>
      restoreDirty_isSome (owedBy_isSome (BatchOutcome.mem_restores hall he hreport)) hfence
  by_cases hfirst : owesFlush = true ∧ flushFails = true
  · refine ⟨_, .failed .io, if_pos hfirst, hstart.images, hstart.childFirst,
      by simp [BatchOutcome.reportsFlushed], hdirty _ _ nofun, ?_⟩
    intro _ _ _ hno
    simp [hno] at hfirst
  · obtain ⟨b, outcome, hloop, hsound, hall⟩ := waveLoop_sound env (n := 0) hstart hfuel
    refine ⟨b, outcome, (if_neg hfirst).trans hloop, hsound.images, hsound.childFirst, ?_,
      hdirty _ _ hall, ?_⟩
    · intro e he hreport
      refine hsound.durableHere _ (hsound.flushedHere e he ?_)
      cases outcome with
      | report deferred => exact hreport
      | failed error => cases hreport
    · intro hacyclic houtside hclean _
      obtain ⟨b', hcomplete⟩ := waveLoop_complete (n := 0) hstart hfuel hclean hacyclic houtside
        (fun g hg => hg)
      obtain rfl : outcome = .report false := by
        rw [hloop] at hcomplete
        exact congrArg Prod.snd (Option.some.inj hcomplete)
      exact ⟨rfl, hall rfl⟩

/-- A parent captured before its child, both dirty: the child is written first, then the
parent. -/
theorem child_first_durability_chain :
    ∃ b, writeEntriesInDependencyOrder (γ := ℕ) (fun _ => Turn.quiet) 3 true false
        [⟨0, 0, 5, [1]⟩, ⟨0, 1, 6, []⟩] [] = some (b, .report false) ∧
      ∀ e ∈ b.entries, e.flushed = true := by
  have hacyclic : Acyclic [(⟨0, 0, 5, [1]⟩ : Capture ℕ), ⟨0, 1, 6, []⟩] := by
    -- along a reference the blob's number falls
    have hlt : ∀ c p, Relation.TransGen
        (References [(⟨0, 0, 5, [1]⟩ : Capture ℕ), ⟨0, 1, 6, []⟩]) c p → p < c := by
      intro c p h
      have hone : ∀ c p, References [(⟨0, 0, 5, [1]⟩ : Capture ℕ), ⟨0, 1, 6, []⟩] c p →
          p < c := by
        rintro c p ⟨-, image, himage, rfl, hc⟩
        fin_cases himage <;> simp_all
      induction h with
      | single h => exact hone _ _ h
      | tail _ h ih => exact (hone _ _ h).trans ih
    exact fun g h => lt_irrefl g (hlt g g h)
  have houtside : OutsideDurable (fun _ => Turn.quiet)
      [(⟨0, 0, 5, [1]⟩ : Capture ℕ), ⟨0, 1, 6, []⟩] [] := by
    intro image himage c hc
    fin_cases himage <;> simp_all
  obtain ⟨b, outcome, hrun, -, -, -, -, hall⟩ := child_first_durability (fun _ => Turn.quiet)
    true false [(⟨0, 0, 5, [1]⟩ : Capture ℕ), ⟨0, 1, 6, []⟩] [] (fun _ => false) (fun _ => none)
  obtain ⟨rfl, hflushed⟩ := hall hacyclic houtside (fun _ => Turn.clean_quiet) rfl
  exact ⟨b, hrun, hflushed⟩

/-- One image whose child is durable, but dirty again: the parent is deferred, not flushed.  So it
is while the store owes a flush.  And if the write fails, a blob that was logically deleted
meanwhile is not put back into the dirty map. -/
theorem redirtied_child_defers_parent :
    let run (turn : Turn ℕ) :=
      writeEntriesInDependencyOrder (fun _ => turn) 2 false false [⟨0, 0, 5, [1]⟩] [1]
    (run { Turn.quiet with unflushed := fun g => decide (g = 1) }).map
        (fun r => (r.1.entries, r.2)) = some ([⟨⟨0, 0, 5, [1]⟩, false⟩], .report true) ∧
    (run { Turn.quiet with needsFlush := true }).map (fun r => (r.1.entries, r.2)) =
      some ([⟨⟨0, 0, 5, [1]⟩, false⟩], .report true) ∧
    (run { Turn.quiet with writeFails := true }).map (fun r => (r.2,
        restoreDirty (fun g => decide (g = 0)) (fun _ => none) (owedBy (r.2.restores r.1)) 0)) =
      some (.failed .io, none) := by
  decide +kernel

end Checkpoint
end Holt
