import Holt.Store.BufferCache

/-!
# Retiring the dirty state of one resident blob

A writer changes a cached frame and then calls `mark_dirty`; a checkpoint drains the dirty map,
captures the frame's content version, clones its bytes if the version is still the captured one,
and writes the clone.  The frame may change between any two of these steps.  This module follows
one blob that stays resident, with every party cut into the atomic steps of the source:

* a writer: the mutation under the write latch, which bumps the content version; the dirty hint
  (`dirty_hint_needs_map_publish`); the section under the shard lock (`mark_dirty_with_hint`);
* an epoch's entry: the start of `snapshot_dirty`, its section under the shard lock,
  `take_dirty_hint`, `snapshot_dirty_versions`, `snapshot_bytes_if_version`,
  `write_snapshot_is_current`, the store write, `retire_write_through`, its `clear_dirty_hint`, and
  the two halves of `restore_dirty`.

The last four run under the `checkpoint_io` mutex.  The mutex matters: after a flush that fails,
`commit_epoch_batch` restores every entry of its batch, also those already retired, so an entry
may give back a flushing reference that belongs to another epoch.  The blob is dirty then, and no
other epoch is in the middle of a store write.

A blob that is logically deleted (`mark_for_delete`), or retired because no reachable parent refers
to it, loses its dirty entry without a write: `retired_blob_not_stored`.  Neither comes back while
the frame stays resident.  The fence of the physical GC only keeps an entry where it is.  Left out
is `delete_blob`, which takes the dirty entry away for as long as it runs.
-/

namespace Holt
namespace Store
namespace Retirement

open List Option

variable {β : Type}

/-- A thread that writes to the blob. -/
inductive Writer
  | idle
  /-- The frame is changed and `mark_dirty` not called yet. -/
  | mutated
  /-- In `mark_dirty_with_hint`, before the shard lock; `covers` is `hint_covers_seq`. -/
  | hinted (seq : ℕ) (covers : Bool)
deriving DecidableEq

/-- Where an entry of an epoch stands. -/
inductive Phase (β : Type)
  /-- Claimed under the shard lock. -/
  | drained
  /-- `snapshot_dirty` returned. -/
  | claimed
  | versioned (version : ℕ)
  | cloned (version : ℕ) (bytes : β)
  /-- `write_snapshot_is_current` said yes. -/
  | checked (version : ℕ) (bytes : β)
  | written (version : ℕ) (bytes : β)
  /-- Retired; `clearsHint` if the hint is still to be cleared. -/
  | retired (clearsHint : Bool)
  /-- To be handed to `restore_dirty`. -/
  | owed
  /-- In `restore_dirty`, before the shard lock. -/
  | restoring
  | done
deriving DecidableEq

structure Entry (β : Type) where
  expectedSeq : ℕ
  phase : Phase β
deriving DecidableEq

/-- The blob's frame, its bookkeeping, and the parties. -/
structure Blob (β : Type) where
  image : β
  version : ℕ
  /-- `dirty_seq_hint`; zero is `CLEAN_DIRTY_SEQ`. -/
  hint : ℕ
  dirty : Option ℕ
  flushing : ℕ
  /-- The last image written to the store. -/
  stored : Option β
  writers : List Writer
  entries : List (Entry β)
  /-- The entry whose batch holds the `checkpoint_io` mutex. -/
  checkpointIo : Option ℕ
  /-- `has_logical_delete_fence`. -/
  fenced : Bool
  /-- The blob has been put into `retired_orphan_set`. -/
  retiredOrphan : Bool
  gcDeleting : Bool
  /-- A `snapshot_dirty` has not reached the shard yet; it cancels the entry of the blob if it found
  it retired. -/
  capture : Option Bool
deriving DecidableEq

inductive Action (β : Type)
  | mutate (t : ℕ) (image : β)
  | checkHint (t seq : ℕ)
  | publish (t : ℕ)
  /-- `mark_for_delete`. -/
  | fence
  | retireOrphan
  | gcFence (on : Bool)
  /-- The hint of a blob that lost its dirty entry is cleared. -/
  | dropHint
  /-- `snapshot_dirty` starts; `cancels` says that the blob is in `retired_orphan_set` and no blob
  at all is flushing. -/
  | beginCapture (cancels : Bool)
  | drain
  | takeHint (e : ℕ)
  | readVersion (e : ℕ)
  | cloneBytes (e : ℕ)
  /-- The epoch fails, or defers the entry. -/
  | giveUp (e : ℕ)
  | enterIo (e : ℕ)
  | checkCurrent (e : ℕ)
  | write (e : ℕ)
  /-- The store write fails; the image may have reached the store. -/
  | writeFails (e : ℕ) (landed : Bool)
  | retire (e : ℕ)
  | clearHint (e : ℕ)
  /-- The rest of the batch, up to its last flush. -/
  | finish (e : ℕ) (ok : Bool)
  | restoreHint (e : ℕ)
  | restore (e : ℕ)
deriving DecidableEq

/-- Whether `dirty_hint_needs_map_publish` finds a hint that covers `seq`. -/
def hintCovers (hint seq : ℕ) : Bool := decide (hint ≠ 0 ∧ hint ≤ seq)

/-- The hint after `dirty_hint_needs_map_publish`. -/
def publishHint (hint seq : ℕ) : ℕ :=
  if hintCovers hint seq then hint else if hint = 0 then seq else min hint seq

/-- `min`-merge into the dirty map's entry. -/
def mergeMin (dirty : Option ℕ) (seq : ℕ) : Option ℕ :=
  some (match dirty with
    | some cur => min cur seq
    | none => seq)

/-- The writer is between its mutation and the end of its `mark_dirty`. -/
def Writer.unmarked : Writer → Bool
  | .idle => false
  | _ => true

def Blob.setWriter (m : Blob β) (t : ℕ) (w : Writer) : Blob β :=
  { m with writers := m.writers.set t w }

def Blob.setEntry (m : Blob β) (e : ℕ) (x : Entry β) : Blob β :=
  { m with entries := m.entries.set e x }

/-- The section of `mark_dirty_with_hint` under the shard lock. -/
def Blob.markDirty (m : Blob β) (seq : ℕ) (covers : Bool) : Blob β :=
  if m.fenced then { m with hint := 0 }
  else if covers ∧ m.dirty.any (fun cur => cur ≤ seq) then m
  else { m with
    hint := if covers then publishHint 0 seq else m.hint
    dirty := mergeMin m.dirty seq }

def writerStep (m : Blob β) : Action β → Option (Blob β)
  | .mutate t image =>
    match m.writers[t]? with
    | some .idle | some .mutated =>
      some { m.setWriter t .mutated with image := image, version := m.version + 1 }
    | _ => none
  | .checkHint t seq =>
    match m.writers[t]? with
    | some .mutated => some { m.setWriter t (.hinted seq (hintCovers m.hint seq)) with
        hint := publishHint m.hint seq }
    | _ => none
  | .publish t =>
    match m.writers[t]? with
    | some (.hinted seq covers) => some ((m.setWriter t .idle).markDirty seq covers)
    | _ => none
  | .fence => some { m with fenced := true, dirty := none }
  | .retireOrphan => some { m with retiredOrphan := true }
  | .gcFence on => some { m with gcDeleting := on }
  | .dropHint => if m.fenced ∨ m.retiredOrphan then some { m with hint := 0 } else none
  | _ => none

/-- The steps of an epoch up to the clone. -/
def captureStep (m : Blob β) : Action β → Option (Blob β)
  | .beginCapture cancels =>
    if m.capture = none ∧ (cancels → m.retiredOrphan ∧ m.flushing = 0) then
      some { m with capture := some cancels }
    else none
  | .drain =>
    match m.capture, m.dirty with
    | some cancels, some seq =>
      if m.fenced ∨ cancels then some { m with capture := none, dirty := none }
      else if m.gcDeleting then some { m with capture := none }
      else some { m with
        capture := none
        dirty := none
        flushing := m.flushing + 1
        entries := m.entries ++ [⟨seq, .drained⟩] }
    | some _, none => some { m with capture := none }
    | none, _ => none
  | .takeHint e =>
    match m.entries[e]? with
    | some ⟨seq, .drained⟩ => some { m.setEntry e
          ⟨if m.hint = 0 then seq else min seq m.hint, .claimed⟩ with hint := 0 }
    | _ => none
  | .readVersion e =>
    match m.entries[e]? with
    | some ⟨seq, .claimed⟩ => some (m.setEntry e ⟨seq, .versioned m.version⟩)
    | _ => none
  | .cloneBytes e =>
    match m.entries[e]? with
    | some ⟨seq, .versioned version⟩ =>
      some (m.setEntry e ⟨seq, if m.version = version then .cloned version m.image else .owed⟩)
    | _ => none
  | .giveUp e =>
    match m.entries[e]? with
    | some ⟨seq, .claimed⟩ | some ⟨seq, .versioned _⟩ | some ⟨seq, .cloned _ _⟩ =>
      some (m.setEntry e ⟨seq, .owed⟩)
    | _ => none
  | _ => none

/-- The steps of a batch under the `checkpoint_io` mutex, and `restore_dirty`. -/
def batchStep (m : Blob β) : Action β → Option (Blob β)
  | .enterIo e =>
    match m.entries[e]?, m.checkpointIo with
    | some ⟨_, .cloned _ _⟩, none => some { m with checkpointIo := some e }
    | _, _ => none
  | .checkCurrent e =>
    match m.entries[e]? with
    | some ⟨seq, .cloned version bytes⟩ =>
      if m.checkpointIo = some e then
        some (m.setEntry e ⟨seq, if m.version = version then .checked version bytes else .owed⟩)
      else none
    | _ => none
  | .write e =>
    match m.entries[e]? with
    | some ⟨seq, .checked version bytes⟩ =>
      some { m.setEntry e ⟨seq, .written version bytes⟩ with stored := some bytes }
    | _ => none
  | .writeFails e landed =>
    match m.entries[e]? with
    | some ⟨seq, .checked _ bytes⟩ =>
      some { m.setEntry e ⟨seq, .owed⟩ with stored := if landed then some bytes else m.stored }
    | _ => none
  | .retire e =>
    match m.entries[e]? with
    | some ⟨seq, .written version _⟩ =>
      if m.version = version then
        let dirty := if seq ≠ structuralSeq ∧ m.dirty.any (fun cur => cur ≤ seq) then none
          else m.dirty
        some { m.setEntry e ⟨seq, .retired (dirty.isNone && decide (m.flushing - 1 = 0))⟩ with
          dirty := dirty
          flushing := m.flushing - 1 }
      else some (m.setEntry e ⟨seq, .owed⟩)
    | _ => none
  | .clearHint e =>
    match m.entries[e]? with
    | some ⟨seq, .retired true⟩ => some { m.setEntry e ⟨seq, .retired false⟩ with hint := 0 }
    | _ => none
  | .finish e ok =>
    match m.entries[e]? with
    | some ⟨seq, .retired false⟩ =>
      if ok then some { m.setEntry e ⟨seq, .done⟩ with checkpointIo := none }
      else some (m.setEntry e ⟨seq, .owed⟩)
    | _ => none
  | .restoreHint e =>
    match m.entries[e]? with
    | some ⟨seq, .owed⟩ =>
      some { m.setEntry e ⟨seq, .restoring⟩ with hint := publishHint m.hint seq }
    | _ => none
  | .restore e =>
    match m.entries[e]? with
    | some ⟨seq, .restoring⟩ => some { m.setEntry e ⟨seq, .done⟩ with
        hint := if m.fenced then 0 else m.hint
        flushing := m.flushing - 1
        dirty := if m.fenced then m.dirty else mergeMin m.dirty seq
        checkpointIo := if m.checkpointIo = some e then none else m.checkpointIo }
    | _ => none
  | _ => none

def step (m : Blob β) (a : Action β) : Option (Blob β) :=
  ((writerStep m a).or (captureStep m a)).or (batchStep m a)

/-- A resident frame, `n` idle writers, no epoch under way. -/
def Blob.resident (image : β) (version hint : ℕ) (dirty : Option ℕ) (stored : Option β) (n : ℕ) :
    Blob β where
  image := image
  version := version
  hint := hint
  dirty := dirty
  flushing := 0
  stored := stored
  writers := List.replicate n .idle
  entries := []
  checkpointIo := none
  fenced := false
  retiredOrphan := false
  gcDeleting := false
  capture := none

/-! ## The invariant -/

/-- The image of the blob will not be needed any more. -/
def Blob.Dead (m : Blob β) : Prop := m.fenced = true ∨ m.retiredOrphan = true

/-- Somebody still owes a write of the blob, or it is dead. -/
def Blob.Owed (m : Blob β) : Prop :=
  m.dirty ≠ none ∨ 0 < m.flushing ∨ (∃ w ∈ m.writers, w.unmarked = true) ∨ m.Dead

/-- The captured clone. -/
def Phase.clone? : Phase β → Option (ℕ × β)
  | .cloned v b | .checked v b | .written v b => some (v, b)
  | _ => none

/-- From the currency check to the end of the batch. -/
def Phase.active : Phase β → Bool
  | .checked _ _ | .written _ _ | .retired _ => true
  | _ => false

/-- A clone at the current version is the frame's image; one batch at a time is past its
check; while it holds an older image than the frame's, the blob is owed. -/
structure Inv (m : Blob β) : Prop where
  clones : ∀ e ∈ m.entries, ∀ v b, e.phase.clone? = some (v, b) →
    v ≤ m.version ∧ (v = m.version → b = m.image)
  holder : ∀ i e, m.entries[i]? = some e → e.phase.active = true → m.checkpointIo = some i
  late : ∀ e ∈ m.entries, ∀ v b, e.phase = .checked v b → v ≠ m.version → m.Owed
  current : ∀ e ∈ m.entries, ∀ v b, e.phase = .written v b → v = m.version →
    m.stored = some m.image
  covered : m.Owed ∨ m.stored = some m.image
  /-- A capture cancels the entry of a retired blob only. -/
  cancels : m.capture = some true → m.retiredOrphan = true

variable {m m' : Blob β}

lemma inv_resident {image : β} {version hint : ℕ} {dirty : Option ℕ} {stored : Option β} {n : ℕ}
    (h : dirty = none → stored = some image) :
    Inv (Blob.resident image version hint dirty stored n) where
  clones := by simp [Blob.resident]
  holder := by simp [Blob.resident]
  late := by simp [Blob.resident]
  current := by simp [Blob.resident]
  covered := by
    by_cases hdirty : dirty = none
    · exact .inr (h hdirty)
    · exact .inl (.inl hdirty)
  cancels := by simp [Blob.resident]

variable (inv : Inv m)
include inv

/-- A step that owes a write keeps the invariant, if it changes no entry and either leaves the
frame alone or bumps its version. -/
lemma Inv.ofOwed (hentries : m'.entries = m.entries) (hio : m'.checkpointIo = m.checkpointIo)
    (hstored : m'.stored = m.stored)
    (hframe : m'.image = m.image ∧ m'.version = m.version ∨ m'.version = m.version + 1)
    (hcapture : m'.capture = m.capture ∧ (m.retiredOrphan = true → m'.retiredOrphan = true))
    (howed : m'.Owed) : Inv m' where
  clones := by
    intro e he v b hclone
    obtain ⟨hle, heq⟩ := inv.clones e (hentries ▸ he) v b hclone
    rcases hframe with ⟨himage, hversion⟩ | hversion
    · rw [himage, hversion]
      exact ⟨hle, heq⟩
    · exact ⟨by omega, by omega⟩
  holder := by
    rw [hentries, hio]
    exact inv.holder
  late := fun _ _ _ _ _ _ => howed
  current := by
    intro e he v b hphase hv
    rw [hentries] at he
    rcases hframe with ⟨himage, hversion⟩ | hversion
    · rw [hstored, himage]
      exact inv.current e he v b hphase (hv.trans hversion)
    · have hle := (inv.clones e he v b (by rw [hphase]; rfl)).1
      omega
  covered := .inl howed
  cancels := fun h => hcapture.2 (inv.cancels (hcapture.1 ▸ h))

variable {i : ℕ} {x y : Entry β}

/-- Moving one entry.  The other entries notice nothing if no write is lost, or if this entry
holds the mutex. -/
lemma Inv.move (hx : m.entries[i]? = some x) (hentries : m'.entries = m.entries.set i y)
    (hframe : m'.image = m.image ∧ m'.version = m.version ∧ m'.capture = m.capture ∧
      m'.retiredOrphan = m.retiredOrphan)
    (hothers : m.checkpointIo = some i ∨ (m.Owed → m'.Owed) ∧ m'.stored = m.stored)
    (hio : ∀ j, j ≠ i → m.checkpointIo = some j → m'.checkpointIo = some j)
    (hclone : ∀ v b, y.phase.clone? = some (v, b) →
      v ≤ m.version ∧ (v = m.version → b = m.image))
    (hholder : y.phase.active = true → m'.checkpointIo = some i)
    (hlate : ∀ v b, y.phase = .checked v b → v ≠ m.version → m'.Owed)
    (hcurrent : ∀ v b, y.phase = .written v b → v = m.version → m'.stored = some m.image)
    (hcovered : m'.Owed ∨ m'.stored = some m.image) : Inv m' := by
  obtain ⟨himage, hversion, hcapture, hretired⟩ := hframe
  -- another entry between check and retirement would hold the mutex as well
  have hquiet : ∀ j e, j ≠ i → m.entries[j]? = some e → e.phase.active = true →
      (m.Owed → m'.Owed) ∧ m'.stored = m.stored := by
    intro j e hj he hactive
    rcases hothers with hmine | hsame
    · exact absurd (Option.some.inj ((inv.holder j e he hactive).symm.trans hmine)) hj
    · exact hsame
  constructor
  · intro e he v b hc
    rw [himage, hversion]
    obtain ⟨j, hj⟩ := mem_iff_getElem?.mp he
    rw [hentries] at hj
    rcases Table.getElem?_set_cases hj with ⟨-, rfl⟩ | ⟨-, hj⟩
    · exact hclone v b hc
    · exact inv.clones e (mem_of_getElem? hj) v b hc
  · intro j e hj hactive
    rw [hentries] at hj
    rcases Table.getElem?_set_cases hj with ⟨rfl, rfl⟩ | ⟨hne, hj⟩
    · exact hholder hactive
    · exact hio j hne (inv.holder j e hj hactive)
  · intro e he v b hphase hv
    obtain ⟨j, hj⟩ := mem_iff_getElem?.mp he
    rw [hentries] at hj
    rw [hversion] at hv
    rcases Table.getElem?_set_cases hj with ⟨-, rfl⟩ | ⟨hne, hj⟩
    · exact hlate v b hphase hv
    · exact (hquiet j e hne hj (by rw [hphase]; rfl)).1
        (inv.late e (mem_of_getElem? hj) v b hphase hv)
  · intro e he v b hphase hv
    obtain ⟨j, hj⟩ := mem_iff_getElem?.mp he
    rw [hentries] at hj
    rw [hversion] at hv
    rw [himage]
    rcases Table.getElem?_set_cases hj with ⟨-, rfl⟩ | ⟨hne, hj⟩
    · exact hcurrent v b hphase hv
    · rw [(hquiet j e hne hj (by rw [hphase]; rfl)).2]
      exact inv.current e (mem_of_getElem? hj) v b hphase hv
  · rw [himage]
    exact hcovered
  · rw [hcapture, hretired]
    exact inv.cancels

/-- Moving an entry out of the way: to a phase without a clone, with nothing else changed that
the invariant reads. -/
lemma Inv.park (hx : m.entries[i]? = some x) (hy : y.phase.clone? = none)
    (hentries : m'.entries = m.entries.set i y)
    (hframe : m'.image = m.image ∧ m'.version = m.version ∧ m'.capture = m.capture ∧
      m'.retiredOrphan = m.retiredOrphan) (hstored : m'.stored = m.stored)
    (howed : m.Owed → m'.Owed)
    (hio : ∀ j, j ≠ i → m.checkpointIo = some j → m'.checkpointIo = some j)
    (hholder : y.phase.active = true → m'.checkpointIo = some i) : Inv m' := by
  refine inv.move hx hentries hframe (.inr ⟨howed, hstored⟩) hio ?_ hholder ?_ ?_ ?_
  · intro v b hc
    rw [hy] at hc
    cases hc
  · intro v b hphase
    rw [hphase] at hy
    cases hy
  · intro v b hphase
    rw [hphase] at hy
    cases hy
  · rw [hstored]
    exact inv.covered.imp howed id

omit inv in
lemma owed_of_set_unmarked {t : ℕ} {w w' : Writer} (ht : m.writers[t]? = some w)
    (hw : w'.unmarked = true) (hset : m'.writers = m.writers.set t w') : m'.Owed := by
  refine .inr (.inr (.inl ⟨w', ?_, hw⟩))
  rw [hset]
  exact mem_iff_getElem?.mpr ⟨t, getElem?_set_self (List.getElem?_eq_some_iff.mp ht).1⟩

omit inv in
lemma owed_markDirty (m : Blob β) (seq : ℕ) (covers : Bool) : (m.markDirty seq covers).Owed := by
  by_cases hfenced : m.fenced = true
  · rw [Blob.markDirty, if_pos hfenced]
    exact .inr (.inr (.inr (.inl hfenced)))
  refine .inl ?_
  by_cases h : covers = true ∧ m.dirty.any (fun cur => cur ≤ seq) = true
  · intro hnone
    rw [Blob.markDirty, if_neg hfenced, if_pos h] at hnone
    simp [hnone] at h
  · rw [Blob.markDirty, if_neg hfenced, if_neg h]
    simp [mergeMin]

variable {a : Action β}

lemma Inv.writerStep (hstep : writerStep m a = some m') : Inv m' := by
  cases a <;> simp only [Retirement.writerStep, reduceCtorEq] at hstep
  case mutate t image =>
    split at hstep <;> try contradiction
    all_goals
      rename_i hw
      cases hstep
      exact inv.ofOwed rfl rfl rfl (.inr rfl) ⟨rfl, id⟩ (owed_of_set_unmarked hw rfl rfl)
  case checkHint t seq =>
    split at hstep <;> try contradiction
    rename_i hw
    cases hstep
    exact inv.ofOwed rfl rfl rfl (.inl ⟨rfl, rfl⟩) ⟨rfl, id⟩ (owed_of_set_unmarked hw rfl rfl)
  case publish t =>
    split at hstep <;> try contradiction
    rename_i seq covers hw
    cases hstep
    have hsame : ∀ u : Blob β, (u.markDirty seq covers).entries = u.entries ∧
        (u.markDirty seq covers).checkpointIo = u.checkpointIo ∧
        (u.markDirty seq covers).stored = u.stored ∧
        (u.markDirty seq covers).image = u.image ∧
        (u.markDirty seq covers).version = u.version ∧
        (u.markDirty seq covers).capture = u.capture ∧
        (u.markDirty seq covers).retiredOrphan = u.retiredOrphan := by
      intro u
      simp only [Blob.markDirty]
      split_ifs <;> exact ⟨rfl, rfl, rfl, rfl, rfl, rfl, rfl⟩
    obtain ⟨hentries, hio, hstored, himage, hversion, hcapture, hretired⟩ :=
      hsame (m.setWriter t .idle)
    exact inv.ofOwed hentries hio hstored (.inl ⟨himage, hversion⟩)
      ⟨hcapture, fun h => hretired.trans h⟩ (owed_markDirty _ seq covers)
  case fence =>
    cases hstep
    exact inv.ofOwed rfl rfl rfl (.inl ⟨rfl, rfl⟩) ⟨rfl, id⟩ (.inr (.inr (.inr (.inl rfl))))
  case retireOrphan =>
    cases hstep
    exact inv.ofOwed rfl rfl rfl (.inl ⟨rfl, rfl⟩) ⟨rfl, fun _ => rfl⟩
      (.inr (.inr (.inr (.inr rfl))))
  case gcFence on =>
    cases hstep
    exact { inv with }
  case dropHint =>
    obtain ⟨-, rfl⟩ := Transition.guard_eq_some.mp hstep
    exact { inv with }

/-- The dirty entry of a dead blob is dropped. -/
lemma Inv.cancel (hdead : m.Dead) :
    Inv { m with capture := none, dirty := none } :=
  { inv with
    late := fun _ _ _ _ _ _ => .inr (.inr (.inr hdead))
    covered := .inl (.inr (.inr (.inr hdead)))
    cancels := nofun }

/-- An epoch claims the blob: the flushing reference takes over from the dirty entry. -/
lemma Inv.claim (seq : ℕ) : Inv { m with
    capture := none
    dirty := none
    flushing := m.flushing + 1
    entries := m.entries ++ [⟨seq, .drained⟩] } where
  clones := by
    intro e he v b hc
    rcases Table.mem_concat he with he | rfl
    · exact inv.clones e he v b hc
    · cases hc
  holder := by
    intro j e hj hactive
    rcases Table.getElem?_append_cases hj with hj | ⟨-, rfl⟩
    · exact inv.holder j e hj hactive
    · cases hactive
  late := fun _ _ _ _ _ _ => .inr (.inl (Nat.succ_pos _))
  current := by
    intro e he v b hphase hv
    rcases Table.mem_concat he with he | rfl
    · exact inv.current e he v b hphase hv
    · cases hphase
  covered := .inl (.inr (.inl (Nat.succ_pos _)))
  cancels := nofun

lemma Inv.captureStep (hstep : captureStep m a = some m') : Inv m' := by
  cases a <;> simp only [Retirement.captureStep, reduceCtorEq] at hstep
  case beginCapture cancels =>
    obtain ⟨⟨-, hcancels⟩, rfl⟩ := Transition.guard_eq_some.mp hstep
    exact { inv with cancels := fun h => (hcancels (Option.some.inj h)).1 }
  case drain =>
    split at hstep
    case h_2 | h_3 => cases hstep <;> exact { inv with cancels := nofun }
    case h_1 cancels seq hcapture hdirty =>
      split_ifs at hstep with hdead hgc <;> cases hstep
      · refine inv.cancel ?_
        rcases hdead with hfenced | rfl
        · exact .inl hfenced
        · exact .inr (inv.cancels hcapture)
      · exact { inv with cancels := nofun }
      · exact inv.claim seq
  case takeHint e | readVersion e =>
    split at hstep <;> try contradiction
    rename_i hx
    cases hstep
    exact inv.park hx rfl rfl ⟨rfl, rfl, rfl, rfl⟩ rfl id (fun _ _ h => h) nofun
  case cloneBytes e =>
    split at hstep <;> try contradiction
    rename_i seq version hx
    cases hstep
    by_cases hv : m.version = version
    · -- a clone at the captured version is the image itself
      refine inv.move hx rfl ⟨rfl, rfl, rfl, rfl⟩ (.inr ⟨id, rfl⟩)
        (fun _ _ h => h) ?_ ?_ ?_ ?_ inv.covered
      · rw [if_pos hv]
        rintro v b hc
        obtain ⟨rfl, rfl, rfl, rfl⟩ : version = v ∧ m.image = b := by simpa [Phase.clone?] using hc
        exact ⟨hv.ge, fun _ => rfl⟩
      all_goals
        rw [if_pos hv]
        simp [Phase.active]
    · rw [if_neg hv]
      exact inv.park hx rfl rfl ⟨rfl, rfl, rfl, rfl⟩ rfl id (fun _ _ h => h) nofun
  case giveUp e =>
    split at hstep <;> try contradiction
    all_goals
      rename_i hx
      cases hstep
      exact inv.park hx rfl rfl ⟨rfl, rfl, rfl, rfl⟩ rfl id (fun _ _ h => h) nofun

lemma Inv.clone_of (hx : m.entries[i]? = some x) {v : ℕ} {b : β}
    (hc : x.phase.clone? = some (v, b)) : v ≤ m.version ∧ (v = m.version → b = m.image) :=
  inv.clones x (mem_of_getElem? hx) v b hc

lemma Inv.batchStep (hstep : batchStep m a = some m') : Inv m' := by
  cases a <;> simp only [Retirement.batchStep, reduceCtorEq] at hstep
  case enterIo e =>
    split at hstep <;> try contradiction
    rename_i hx hfree
    cases hstep
    refine { inv with holder := fun j y hj hactive => ?_ }
    have hholds := inv.holder j y hj hactive
    rw [hfree] at hholds
    cases hholds
  case checkCurrent e =>
    split at hstep <;> try contradiction
    rename_i seq version bytes hx
    split_ifs at hstep with hio hv
    · cases hstep
      refine inv.move hx rfl ⟨rfl, rfl, rfl, rfl⟩ (.inl hio) (fun _ _ h => h)
        (fun _ _ => inv.clone_of hx) (fun _ => hio) ?_ nofun inv.covered
      rintro v b hphase hne
      obtain ⟨rfl, -⟩ : version = v ∧ bytes = b := by simpa using hphase
      exact absurd hv.symm hne
    · cases hstep
      exact inv.park hx rfl rfl ⟨rfl, rfl, rfl, rfl⟩ rfl id (fun _ _ h => h) nofun
  case write e =>
    split at hstep <;> try contradiction
    rename_i seq version bytes hx
    cases hstep
    have hio := inv.holder e _ hx rfl
    have hclone := inv.clone_of hx rfl
    refine inv.move hx rfl ⟨rfl, rfl, rfl, rfl⟩ (.inl hio) (fun _ _ h => h)
      (fun _ _ => inv.clone_of hx) (fun _ => hio) nofun ?_ ?_
    · rintro v b hphase hv
      obtain ⟨rfl, rfl, rfl, rfl⟩ : version = v ∧ bytes = b := by simpa using hphase
      exact congrArg some (hclone.2 hv)
    · by_cases hv : version = m.version
      · exact .inr (congrArg some (hclone.2 hv))
      · exact .inl (inv.late _ (mem_of_getElem? hx) version bytes rfl hv)
  case writeFails e landed =>
    split at hstep <;> try contradiction
    rename_i seq version bytes hx
    cases hstep
    have hio := inv.holder e _ hx rfl
    have hclone := inv.clone_of hx rfl
    refine inv.move hx rfl ⟨rfl, rfl, rfl, rfl⟩ (.inl hio)
      (fun _ _ h => h) nofun nofun nofun nofun ?_
    by_cases hv : version = m.version
    · cases landed with
      | true => exact .inr (congrArg some (hclone.2 hv))
      | false => exact inv.covered
    · exact .inl (inv.late _ (mem_of_getElem? hx) version bytes rfl hv)
  case retire e =>
    split at hstep <;> try contradiction
    rename_i seq version bytes hx
    by_cases hv : m.version = version
    · rw [if_pos hv] at hstep
      cases hstep
      -- the written image is the frame's, so nothing is owed any more
      have hio := inv.holder e _ hx rfl
      have hstored := inv.current _ (mem_of_getElem? hx) version bytes rfl hv.symm
      exact inv.move hx rfl ⟨rfl, rfl, rfl, rfl⟩ (.inl hio) (fun _ _ h => h) nofun
        (fun _ => hio) nofun nofun
        (.inr hstored)
    · rw [if_neg hv] at hstep
      cases hstep
      exact inv.park hx rfl rfl ⟨rfl, rfl, rfl, rfl⟩ rfl id (fun _ _ h => h) nofun
  case clearHint e =>
    split at hstep <;> try contradiction
    rename_i hx
    cases hstep
    have hio := inv.holder e _ hx rfl
    exact inv.park hx rfl rfl ⟨rfl, rfl, rfl, rfl⟩ rfl id (fun _ _ h => h) (fun _ => hio)
  case finish e ok =>
    split at hstep <;> try contradiction
    rename_i hx
    have hio := inv.holder e _ hx rfl
    cases ok with
    | true =>
      cases hstep
      refine inv.park hx rfl rfl ⟨rfl, rfl, rfl, rfl⟩ rfl id (fun j hj hj' => ?_) nofun
      exact absurd (Option.some.inj (hj'.symm.trans hio)) hj
    | false =>
      cases hstep
      exact inv.park hx rfl rfl ⟨rfl, rfl, rfl, rfl⟩ rfl id (fun _ _ h => h) nofun
  case restoreHint e =>
    split at hstep <;> try contradiction
    rename_i hx
    cases hstep
    exact inv.park hx rfl rfl ⟨rfl, rfl, rfl, rfl⟩ rfl id (fun _ _ h => h) nofun
  case restore e =>
    split at hstep <;> try contradiction
    rename_i seq hx
    cases hstep
    refine inv.park hx rfl rfl ⟨rfl, rfl, rfl, rfl⟩ rfl (fun howed => ?_) ?_ nofun
    · by_cases hfenced : m.fenced = true
      · exact .inr (.inr (.inr (.inl hfenced)))
      · simp [Blob.Owed, hfenced, mergeMin]
    · intro j hj hio
      simp [hio, hj]

lemma Inv.step (hstep : step m a = some m') : Inv m' := by
  rcases or_eq_some_iff.mp hstep with hstep | ⟨-, hstep⟩
  · rcases or_eq_some_iff.mp hstep with hstep | ⟨-, hstep⟩
    · exact inv.writerStep hstep
    · exact inv.captureStep hstep
  · exact inv.batchStep hstep

omit inv

/-- In every interleaving, from a resident frame that is dirty or is the store's image: whenever
the blob is neither dirty nor flushing, no writer is between its mutation and the end of its
`mark_dirty`, and the blob has been neither logically deleted nor retired as an orphan, the last
image written to the store is the frame's image. -/
theorem clean_blob_is_stored {image : β} {version hint : ℕ} {dirty : Option ℕ}
    {stored : Option β} {n : ℕ} (hstart : dirty = none → stored = some image)
    {as : List (Action β)} {m : Blob β}
    (hrun : Transition.exec step (Blob.resident image version hint dirty stored n) as = some m)
    (hdirty : m.dirty = none) (hflushing : m.flushing = 0)
    (hwriters : ∀ w ∈ m.writers, w.unmarked = false) (hfenced : m.fenced = false)
    (hretired : m.retiredOrphan = false) : m.stored = some m.image := by
  have inv : Inv m := (Transition.freePath_of_exec hrun).invariant
    (fun _ _ _ hs _ hstep => hs.step hstep) (inv_resident hstart)
  refine inv.covered.resolve_left ?_
  rintro (h | h | ⟨w, hw, h⟩ | h | h)
  · exact h hdirty
  · omega
  · simp [hwriters w hw] at h
  · simp [hfenced] at h
  · simp [hretired] at h

/-- Two epochs on one blob.  The first writes an image that a writer overtakes during the store
write, and is restored; the second writes the newer image, its batch fails at the flush, and it
is restored although it was retired; a third epoch writes it again. -/
def overtakenEpochs : List (Action ℕ) :=
  [.mutate 0 1, .checkHint 0 10, .publish 0,
    .beginCapture false, .drain, .takeHint 0, .readVersion 0, .cloneBytes 0, .enterIo 0,
      .checkCurrent 0,
    .mutate 0 2, .checkHint 0 11, .publish 0, .beginCapture false, .drain, .takeHint 1,
      .readVersion 1,
    .write 0, .retire 0, .restoreHint 0, .restore 0,
    .cloneBytes 1, .enterIo 1, .checkCurrent 1, .write 1, .retire 1, .clearHint 1,
    .finish 1 false, .restoreHint 1, .restore 1,
    .beginCapture false, .drain, .takeHint 2, .readVersion 2, .cloneBytes 2, .enterIo 2,
      .checkCurrent 2, .write 2,
    .retire 2, .clearHint 2, .finish 2 true]

theorem clean_blob_is_stored_overtakenEpochs :
    ((Transition.exec step (Blob.resident 0 7 0 none (some 0) 1) overtakenEpochs).map
      (fun m => (m.dirty, m.flushing, m.writers, m.fenced, m.retiredOrphan, m.image))) =
      some (none, 0, [.idle], false, false, 2) ∧
    ∀ m, Transition.exec step (Blob.resident 0 7 0 none (some 0) 1) overtakenEpochs = some m →
      m.stored = some m.image := by
  have hend : ((Transition.exec step (Blob.resident 0 7 0 none (some 0) 1) overtakenEpochs).map
      (fun m => (m.dirty, m.flushing, m.writers, m.fenced, m.retiredOrphan, m.image))) =
      some (none, 0, [.idle], false, false, 2) := by
    decide +kernel
  refine ⟨hend, fun m hrun => ?_⟩
  rw [hrun] at hend
  simp only [map_some, Option.some.injEq, Prod.mk.injEq] at hend
  obtain ⟨hdirty, hflushing, hwriters, hfenced, hretired, -⟩ := hend
  exact clean_blob_is_stored (fun _ => rfl) hrun hdirty hflushing
    (by simp [hwriters, Writer.unmarked])
    hfenced hretired

/-- A new blob that was never written is retired, and the next capture drops its dirty entry: it
is neither dirty nor flushing, and the store has no image of it. -/
theorem retired_blob_not_stored :
    ∃ m, Transition.exec step (Blob.resident 2 0 7 (some 7) none 0)
        [.retireOrphan, .beginCapture true, .drain] = some m ∧
      m.dirty = none ∧ m.flushing = 0 ∧ (∀ w ∈ m.writers, w.unmarked = false) ∧
      m.stored ≠ some m.image := by
  refine ⟨_, rfl, rfl, rfl, ?_, ?_⟩ <;> decide

/-! ## The flushing count

The count of a blob should be the number of epochs that claimed it and have neither retired nor
restored their claim.  `Ledger` keeps that set of epochs beside the blob; no step reads it. -/

/-- The blob, and for each of its entries whether the epoch owns a flushing reference. -/
structure Ledger (β : Type) where
  blob : Blob β
  owns : List Bool
deriving DecidableEq

/-- Who owns a reference after an action that left the blob as `m`. -/
def ownsAfter (owns : List Bool) (m : Blob β) : Action β → List Bool
  -- nothing is claimed if the entry is dropped or kept
  | .drain => if m.entries.length = owns.length then owns else owns ++ [true]
  | .retire e =>
    match m.entries[e]? with
    | some ⟨_, .retired _⟩ => owns.set e false
    -- stale: the entry is handed to `restore_dirty`
    | _ => owns
  | .restore e => owns.set e false
  | _ => owns

def ledgerStep (l : Ledger β) (a : Action β) : Option (Ledger β) :=
  (step l.blob a).map fun m => ⟨m, ownsAfter l.owns m a⟩

/-- `MutationState::is_protected`. -/
def Blob.isProtected (m : Blob β) : Bool := m.dirty.isSome || m.flushing != 0

def Ledger.Balanced (l : Ledger β) : Prop := l.blob.flushing = l.owns.countP id

/-- `restore_dirty` gets an entry whose epoch still owns its reference, or gets it while no epoch
owns one. -/
def ReleasesOwn (l : Ledger β) : Action β → Prop
  | .restore e => l.owns[e]? = some true ∨ true ∉ l.owns
  | _ => True

instance (l : Ledger β) (a : Action β) : Decidable (ReleasesOwn l a) := by
  unfold ReleasesOwn
  split <;> infer_instance

/-- Claimed and not handed back yet. -/
def Phase.captured : Phase β → Bool
  | .retired _ | .owed | .restoring | .done => false
  | _ => true

/-- An entry on its way to the store owns its reference. -/
structure Ledger.Claimed (l : Ledger β) : Prop where
  length : l.owns.length = l.blob.entries.length
  owns : ∀ (i : ℕ) (x : Entry β), l.blob.entries[i]? = some x → x.phase.captured = true →
    l.owns[i]? = some true

variable {l l' : Ledger β}

/-- An entry moves; if it is captured afterwards it was before, and its claim stands. -/
lemma Ledger.Claimed.move (h : l.Claimed) {owns : List Bool} (hx : l.blob.entries[i]? = some x)
    (hentries : m'.entries = l.blob.entries.set i y)
    (hcaptured : y.phase.captured = true → x.phase.captured = true ∧ owns = l.owns)
    (howns : owns = l.owns ∨ owns = l.owns.set i false) : Ledger.Claimed ⟨m', owns⟩ where
  length := by
    rcases howns with rfl | rfl <;> simp [hentries, h.length]
  owns := by
    intro j z hz hcap
    rw [hentries] at hz
    rcases Table.getElem?_set_cases hz with ⟨rfl, rfl⟩ | ⟨hne, hz⟩
    · obtain ⟨hcap, rfl⟩ := hcaptured hcap
      exact h.owns j x hx hcap
    · have hown := h.owns j z hz hcap
      rcases howns with rfl | rfl
      · exact hown
      · exact (getElem?_set_ne hne.symm).trans hown

lemma countP_release {owns : List Bool} (hi : owns[i]? = some true) :
    (owns.set i false).countP id + 1 = owns.countP id :=
  Table.countP_set_of_end hi rfl rfl

/-- A step keeps the claims, and it keeps the count exactly when it releases a claim that is
its own. -/
lemma Ledger.Claimed.step (h : l.Claimed) (hbal : l.Balanced) (hstep : ledgerStep l a = some l') :
    l'.Claimed ∧ (l'.Balanced ↔ ReleasesOwn l a) := by
  obtain ⟨m', hm, rfl⟩ := map_eq_some_iff.mp hstep
  cases a <;> simp only [Retirement.step, writerStep, captureStep, batchStep, none_or,
    or_none] at hm
  case mutate t image | checkHint t seq | enterIo e =>
    split at hm <;> try contradiction
    all_goals
      cases hm
      exact ⟨{ h with }, iff_of_true hbal trivial⟩
  case fence | retireOrphan | gcFence on =>
    cases hm
    exact ⟨{ h with }, iff_of_true hbal trivial⟩
  case dropHint | beginCapture cancels =>
    obtain ⟨-, rfl⟩ := Transition.guard_eq_some.mp hm
    exact ⟨{ h with }, iff_of_true hbal trivial⟩
  case publish t =>
    split at hm <;> try contradiction
    cases hm
    simp only [Blob.markDirty]
    split_ifs <;> exact ⟨{ h with }, iff_of_true hbal trivial⟩
  case drain =>
    have hsame : ∀ u : Blob β, u.entries = l.blob.entries → u.flushing = l.blob.flushing →
        Ledger.Claimed ⟨u, ownsAfter l.owns u .drain⟩ ∧
          (Ledger.Balanced ⟨u, ownsAfter l.owns u .drain⟩ ↔ ReleasesOwn l .drain) := by
      intro u hentries hflushing
      rw [ownsAfter, if_pos (by rw [hentries, h.length])]
      refine ⟨⟨?_, ?_⟩, iff_of_true (hflushing.trans hbal) trivial⟩ <;> rw [hentries]
      · exact h.length
      · exact h.owns
    split at hm
    case h_2 => cases hm; exact hsame _ rfl rfl
    case h_3 => contradiction
    case h_1 =>
      split_ifs at hm <;> cases hm
      · exact hsame _ rfl rfl
      · exact hsame _ rfl rfl
      · have howns : ∀ u : Blob β, u.entries.length = l.blob.entries.length + 1 →
            ownsAfter l.owns u .drain = l.owns ++ [true] := fun u hlength =>
          if_neg (by rw [hlength, h.length]; omega)
        rw [howns _ (by simp)]
        refine ⟨⟨by simp [h.length], fun i x hx hcap => ?_⟩, iff_of_true ?_ trivial⟩
        · rcases Table.getElem?_append_cases hx with hx | ⟨rfl, -⟩
          · have hown := h.owns i x hx hcap
            exact (getElem?_append_left (List.getElem?_eq_some_iff.mp hown).1).trans hown
          · simp [← h.length]
        · simpa [Balanced] using hbal
  case retire e =>
    split at hm <;> try contradiction
    rename_i seq version bytes hx
    have hlt := (List.getElem?_eq_some_iff.mp hx).1
    by_cases hv : l.blob.version = version
    · rw [if_pos hv] at hm
      cases hm
      -- a written entry owns the reference it gives back
      have hcount := countP_release (h.owns e _ hx rfl)
      refine ⟨h.move hx rfl nofun (.inr ?_), iff_of_true ?_ trivial⟩
      · simp [ownsAfter, Blob.setEntry, hlt]
      · simp only [Balanced, ownsAfter, Blob.setEntry, getElem?_set_self hlt] at hbal ⊢
        omega
    · rw [if_neg hv] at hm
      cases hm
      have howns : ownsAfter l.owns (l.blob.setEntry e ⟨seq, .owed⟩) (.retire e) = l.owns := by
        simp [ownsAfter, Blob.setEntry, hlt]
      rw [howns]
      exact ⟨h.move hx rfl nofun (.inl rfl), iff_of_true hbal trivial⟩
  case restore e =>
    split at hm <;> try contradiction
    rename_i seq hx
    cases hm
    refine ⟨h.move hx rfl nofun (.inr rfl), ?_⟩
    have hlt : e < l.owns.length := h.length ▸ (List.getElem?_eq_some_iff.mp hx).1
    simp only [Balanced, ownsAfter, ReleasesOwn] at hbal ⊢
    rw [hbal]
    cases hown : l.owns[e] with
    | true =>
      have hi : l.owns[e]? = some true := by rw [getElem?_eq_getElem hlt, hown]
      have hcount := countP_release hi
      exact iff_of_true (by omega) (.inl hi)
    | false =>
      -- the epoch owns nothing: the saturating decrement is right only at zero
      have hi : l.owns[e]? = some false := by rw [getElem?_eq_getElem hlt, hown]
      have hcount : (l.owns.set e false).countP id = l.owns.countP id :=
        Table.countP_set_of_eq hi rfl
      have hzero : l.owns.countP id = 0 ↔ true ∉ l.owns := by simp [countP_eq_zero]
      rw [hcount, hi]
      simp only [Option.some.injEq, Bool.false_eq_true, false_or, ← hzero]
      omega
  case checkCurrent e =>
    split at hm <;> try contradiction
    rename_i hx
    obtain ⟨-, rfl⟩ := Transition.guard_eq_some.mp hm
    exact ⟨h.move hx rfl (fun _ => ⟨rfl, rfl⟩) (.inl rfl), iff_of_true hbal trivial⟩
  case finish e ok =>
    split at hm <;> try contradiction
    rename_i hx
    cases ok <;> cases hm <;> exact ⟨h.move hx rfl nofun (.inl rfl), iff_of_true hbal trivial⟩
  case clearHint e | restoreHint e =>
    split at hm <;> try contradiction
    rename_i hx
    cases hm
    exact ⟨h.move hx rfl nofun (.inl rfl), iff_of_true hbal trivial⟩
  case takeHint e | readVersion e | cloneBytes e | giveUp e | write e | writeFails e landed =>
    split at hm <;> try contradiction
    all_goals
      rename_i hx
      cases hm
      exact ⟨h.move hx rfl (fun _ => ⟨rfl, rfl⟩) (.inl rfl), iff_of_true hbal trivial⟩

/-- In every interleaving in which each `restore_dirty` releases a claim of its own epoch, or
comes when no epoch holds one, the flushing count is the number of epochs that own the blob: it
is zero when none does, and a blob that one owns is protected.  A next step keeps this exactly
when it is such a step. -/
theorem flushing_counts_owners {image : β} {version hint : ℕ} {dirty : Option ℕ}
    {stored : Option β} {n : ℕ} {as : List (Action β)} {l : Ledger β}
    (hrun : Transition.Path ledgerStep ReleasesOwn
      ⟨Blob.resident image version hint dirty stored n, []⟩ as l) :
    l.Balanced ∧ (true ∉ l.owns → l.blob.flushing = 0) ∧
      (true ∈ l.owns → l.blob.isProtected = true) ∧
      ∀ a l', ledgerStep l a = some l' → (l'.Balanced ↔ ReleasesOwn l a) := by
  obtain ⟨hclaimed, hbal⟩ := hrun.invariant (I := fun l => l.Claimed ∧ l.Balanced)
    (fun _ _ _ hs hg hstep => (hs.1.step hs.2 hstep).imp_right fun hiff => hiff.mpr hg)
    ⟨⟨rfl, nofun⟩, rfl⟩
  have hzero : l.blob.flushing = 0 ↔ true ∉ l.owns := by
    rw [hbal]
    simp [countP_eq_zero]
  refine ⟨hbal, hzero.mpr, fun hown => ?_, fun a l' hstep => (hclaimed.step hbal hstep).2⟩
  have hne : l.blob.flushing ≠ 0 := fun h => hzero.mp h hown
  simp [Blob.isProtected, hne]

theorem flushing_counts_owners_overtakenEpochs :
    ∃ l, Transition.exec ledgerStep ⟨Blob.resident 0 7 0 none (some 0) 1, []⟩ overtakenEpochs =
      some l ∧ l.Balanced := by
  obtain ⟨l, hexec, hpath, -⟩ := Transition.path_of_guardedTo (show Transition.guardedTo ledgerStep
    ReleasesOwn (fun _ => True) ⟨Blob.resident 0 7 0 none (some 0) 1, []⟩ overtakenEpochs = true by
    decide +kernel)
  exact ⟨l, hexec, (flushing_counts_owners hpath).1⟩

/-- The first epoch writes and retires the blob; a writer dirties it again and a second epoch
claims it.  Then the first epoch's batch fails at its flush and is restored as a whole, which
releases the second epoch's claim.  A third epoch claims the blob, and the second retires. -/
def claimReleasedTwice : List (Action ℕ) :=
  [.mutate 0 1, .checkHint 0 10, .publish 0,
    .beginCapture false, .drain, .takeHint 0, .readVersion 0, .cloneBytes 0, .enterIo 0,
      .checkCurrent 0, .write 0,
    .retire 0, .clearHint 0, .mutate 0 2, .checkHint 0 11, .publish 0,
    .beginCapture false, .drain, .takeHint 1, .readVersion 1, .cloneBytes 1,
    .finish 0 false, .restoreHint 0, .restore 0,
    .beginCapture false, .drain, .takeHint 2, .enterIo 1, .checkCurrent 1, .write 1, .retire 1]

/-- The third epoch owns the blob, which is neither dirty nor flushing. -/
theorem owned_blob_unprotected :
    ∃ l, Transition.exec ledgerStep ⟨Blob.resident 0 7 0 none (some 0) 1, []⟩ claimReleasedTwice =
      some l ∧ l.owns = [false, false, true] ∧ ¬ l.Balanced ∧ l.blob.isProtected = false := by
  obtain ⟨l, hexec, h⟩ := Transition.exists_of_exec_any (show (Transition.exec ledgerStep
    ⟨Blob.resident 0 7 0 none (some 0) 1, []⟩ claimReleasedTwice).any (fun l =>
      l.owns = [false, false, true] ∧ l.blob.flushing = 0 ∧ l.blob.dirty = none) = true
    by decide +kernel)
  obtain ⟨howns, hzero, hdirty⟩ := of_decide_eq_true h
  refine ⟨l, hexec, howns, ?_, by simp [Blob.isProtected, hzero, hdirty]⟩
  simp [Ledger.Balanced, howns, hzero]

end Retirement
end Store
end Holt
