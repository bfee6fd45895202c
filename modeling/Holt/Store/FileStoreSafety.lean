import Holt.Store.FileStoreSteps

/-!
# Crash safety of the file blob store

A crash at any point of any run leaves files that open, and every blob in them is whole
(`FileInv.survives`, `Survives.openStore`).  `crash_atomicity` says what is served after a run
in which no flush has failed: the blobs of the last flush, with some of the changes of the
flush in progress.

A flush may fail because its append reaches the log only in part.  The next flush appends all
changes again, behind what is there.  If that is whole frames, replay makes the changes twice,
which is the same (`flushed_after_failure`).  If it is the beginning of a frame, the next
append is read as the rest of it: after `MLG1` the magic of the next frame is taken for the
length of the body, which no log is long enough for, and everything behind it is lost as a
torn tail (`flush_lost_after_torn_append`).
-/

namespace Holt
namespace Store

open List Option FrameLog Transition

variable {crc : List Byte → UInt32} {s s' : FileStore}

/-! ## Crash and open -/

variable {base : Entries} {baseNext : ℕ} {ds : List ManifestDelta}

lemma Loadable.fits (h : Loadable base baseNext ds) : ∀ d ∈ ds, d.Fits := by
  intro d hd
  cases d with
  | set guid slot => exact (h.slots guid slot hd).trans (by norm_num [maxSlots])
  | delete guid => trivial

variable {f : Files}

variable {map : SlotMap}

lemma load_of_recovers (hr : Recovers crc f map) (hone : OneEach map) :
    ∃ m, load crc f.snapshot f.log = .ok m ∧ m.entries.lookup = map ∧ m.Sound [] ∧
      m.nextSlot ≤ maxSlots ∧ m.pendingFree = [] ∧ m.pendingLog = [] ∧
      ∃ base baseNext ds, f.snapshot = encodeSnapshot base baseNext ∧
        f.log.take m.logBytes = frames crc ds ∧ Loadable base baseNext ds ∧
        applyDeltas base.lookup ds = map := by
  obtain ⟨base, baseNext, ds, tail, hsnapshot, hlog, htail, hload, hmap⟩ := hr
  obtain ⟨m, hm, hlookup, hnext, hsound, hfree, hpending, hbytes⟩ := load_spec hload.one hload.below
    (lt_of_le_of_lt hload.next (by norm_num [maxSlots])) hload.count hload.fits hload.noConflict
    htail (hmap ▸ hone)
  refine ⟨m, ?_, hlookup.trans hmap, hsound, ?_, hfree, hpending, base, baseNext, ds, hsnapshot, ?_,
    hload, hmap⟩
  · rw [hsnapshot, hlog]
    exact hm
  · rw [hnext]
    exact highWater_le hload.next hload.slots
  · rw [hlog, hbytes]
    exact take_left' rfl

lemma exists_matches {changes : List BlobChange} (h : List.Forall₂ (Matches crc f) ds changes)
    {d : ManifestDelta} (hd : d ∈ ds) : ∃ change, Matches crc f d change := by
  induction h with
  | nil => simp at hd
  | @cons d' change ds changes hm _ ih =>
    rcases mem_cons.mp hd with rfl | hrest
    · exact ⟨change, hm⟩
    · exact ih hrest

variable {reserved : List ℕ}

/-- The blobs of the flushed map and of the pending changes are in their slots. -/
lemma Ledger.stored {m : Manifest} {h : History} (hl : Ledger crc f m h reserved) {guid : Guid}
    {slot : ℕ} (hslot : h.slots guid = some slot ∨ .set guid slot ∈ m.pendingLog) :
    ∃ image, Stored crc f slot guid image := by
  rcases hslot with hold | hset
  · rcases hl.shows guid with ⟨hnone, -⟩ | ⟨slot', image, hslot', -, hstored, -⟩
    · simp [hnone] at hold
    · cases hslot'.symm.trans hold
      exact ⟨image, hstored⟩
  · obtain ⟨change, hmatch⟩ := exists_matches hl.pending hset
    cases change with
    | write guid' image => exact ⟨image, hmatch.2⟩
    | delete guid' => exact hmatch.elim

/-- A crash leaves files that open with a map in which every blob is whole. -/
structure Survives (crc : List Byte → UInt32) (s : FileStore) (c : Survival) (map : SlotMap) :
    Prop where
  recovers : Recovers crc (s.files.crash c) map
  one : OneEach map
  whole : ∀ guid slot, map guid = some slot →
    Synced s.files slot ∧ ∃ image, Stored crc s.files slot guid image

/-- How a crash of a store that is not in the middle of an append ends. -/
lemma Waiting.recovers (hw : Waiting crc s) (hl : Ledger crc s.files s.manifest s.history reserved)
    (c : Survival) :
    ∃ map, Survives crc s c map ∧ (s.history.failed = false → map = s.history.slots) := by
  obtain ⟨base, baseNext, ds, hu, happended⟩ := hw
  refine ⟨applyDeltas base.lookup ds, ⟨⟨base, baseNext, ds, [], ?_, ?_, logHead_nil, hu.loadable,
    rfl⟩, hl.oneEach hu.consistent, fun guid slot hslot => ?_⟩, hu.exact⟩
  · simp only [Files.crash, hu.renamed, getD_none, ite_self, hu.snapshot]
  · simp [Files.crash, hu.truncated, happended, hu.log]
  · exact ⟨hu.synced guid slot hslot, hl.stored (hu.consistent.placed guid slot hslot)⟩

lemma recovers_syncLog (hu : Unflushed crc s base baseNext ds)
    (happended : s.files.appended = frames crc s.manifest.pendingLog) (hclean : AllClean s.files)
    (hl : Ledger crc s.files s.manifest s.history reserved) (c : Survival) :
    ∃ map n, Survives crc s c map ∧ (s.history.failed = false →
      map = applyDeltas s.history.slots (s.manifest.pendingLog.take n)) := by
  have hfits : ∀ d ∈ s.manifest.pendingLog, d.Fits := by
    have hall := hl.loadable_append hu.loadable hu.consistent (fun _ hd => hd)
    exact fun d hd => hall.fits d (mem_append_right _ hd)
  obtain ⟨whole, tail, hwhole, htake, htail⟩ := exists_take_flatMap (@framing crc) hfits c.kept
  have hn : whole = s.manifest.pendingLog.take whole.length := prefix_iff_eq_take.mp hwhole
  have hpart : ∀ d ∈ whole, d ∈ s.manifest.pendingLog := fun _ hd => hwhole.subset hd
  have hc := hu.consistent.append hpart
  have htorn : logHead crc tail = .torn := by
    rcases htail with rfl | htorn
    · exact logHead_nil
    · exact htorn
  refine ⟨applyDeltas base.lookup (ds ++ whole), whole.length, ⟨⟨base, baseNext, ds ++ whole, tail,
    ?_, ?_, htorn, hl.loadable_append hu.loadable hu.consistent hpart, rfl⟩, hl.oneEach hc,
    fun guid slot hslot => ?_⟩, fun hfailed => ?_⟩
  · simp only [Files.crash, hu.renamed, getD_none, ite_self, hu.snapshot]
  · simp only [Files.crash, hu.truncated, Bool.false_and, Bool.false_eq_true, if_false, happended,
      hu.log]
    rw [frames_append, append_assoc]
    exact congrArg (frames crc ds ++ ·) htake
  · exact ⟨hclean.synced slot, hl.stored (hc.placed guid slot hslot)⟩
  · rw [applyDeltas_append, hu.exact hfailed, ← hn]

/-- How a crash ends when the append is synced: with a new snapshot or the old one, and with the
log or, beside the new snapshot, without it. -/
lemma recovers_flushed (hf : Flushed crc s base baseNext ds) (hclean : AllClean s.files)
    (hl : Ledger crc s.files s.manifest s.history reserved) (hrenamed : s.files.renamed = none ∨
      (s.files.renamed = some (encodeSnapshot s.manifest.entries s.manifest.nextSlot) ∧
        s.manifest.entries.entries.length < 2 ^ 32))
    (htruncated : s.files.truncated = true → s.files.renamed = none ∧
      base.lookup = s.manifest.entries.lookup) (c : Survival) :
    Survives crc s c s.manifest.entries.lookup := by
  have hc : Consistent base.lookup ds s.history.slots s.manifest.pendingLog :=
    .of_applied (hf.exact.trans hl.entries)
  refine ⟨?_, hf.exact ▸ hl.oneEach hc, fun guid slot hslot => ⟨hclean.synced slot, ?_⟩⟩
  · by_cases hcut : (s.files.truncated && c.truncated) = true
    · obtain ⟨hnone, hbase⟩ := htruncated (by simp only [Bool.and_eq_true] at hcut; exact hcut.1)
      refine ⟨base, baseNext, [], [], ?_, ?_, logHead_nil, hf.loadable.cut, hbase⟩
      · simp only [Files.crash, hnone, getD_none, ite_self, hf.snapshot]
      · simp only [Files.crash, if_pos hcut]
        rfl
    · have hlog : (s.files.crash c).log = frames crc ds ++ [] := by
        simp only [Files.crash, if_neg hcut, hf.appended, take_nil, hf.log]
      by_cases hnew : c.renamed = true ∧ s.files.renamed ≠ none
      · obtain ⟨hpicked, hsome⟩ := hnew
        obtain ⟨hrenamed, hcount⟩ := hrenamed.resolve_left hsome
        obtain ⟨hload, hexact⟩ := hf.loadable_entries hl hcount
        refine ⟨s.manifest.entries, s.manifest.nextSlot, ds, [], ?_, hlog, logHead_nil, hload,
          hexact⟩
        simp only [Files.crash, hpicked, if_true, hrenamed, getD_some]
      · refine ⟨base, baseNext, ds, [], ?_, hlog, logHead_nil, hf.loadable, hf.exact⟩
        rw [← hf.snapshot]
        by_cases hpicked : c.renamed = true
        · have hnone : s.files.renamed = none := by
            by_contra hsome
            exact hnew ⟨hpicked, hsome⟩
          simp only [Files.crash, hnone, getD_none, ite_self]
        · simp only [Files.crash, if_neg hpicked]
  · exact hl.stored (hc.placed guid slot ((congrFun hf.exact guid).trans hslot))

/-- Before the append, after its sync, or in between. -/
lemma FileInv.waiting_or_flushed (hi : FileInv crc s) (c : Survival) :
    (s.appending = false ∧ Waiting crc s) ∨
    (s.appending = true ∧ AllClean s.files ∧ Survives crc s c s.manifest.entries.lookup) ∨
    (s.appending = true ∧ AllClean s.files ∧ ∃ map n, Survives crc s c map ∧
      (s.history.failed = false →
        map = applyDeltas s.history.slots (s.manifest.pendingLog.take n))) := by
  have hl := hi.ledger
  have hpoint := hi.phase
  unfold FileStore.appending
  cases hphase : s.phase with
  | idle => exact .inl ⟨rfl, (hi.phaseInv hphase).1⟩
  | writing point prepared =>
    rw [hphase] at hpoint
    cases point with
    | pwrite | records | publish => exact .inl ⟨rfl, hpoint.1⟩
  | flushing point =>
    rw [hphase] at hpoint
    cases point with
    | syncData | syncIntegrity | append => exact .inl ⟨rfl, hpoint.1⟩
    | syncLog =>
      obtain ⟨hclean, base, baseNext, ds, hu, happended⟩ := hpoint
      exact .inr (.inr ⟨rfl, hclean, recovers_syncLog hu happended hclean hl c⟩)
    | rename =>
      obtain ⟨hclean, base, baseNext, ds, hf, hrenamed, htruncated⟩ := hpoint
      exact .inr (.inl ⟨rfl, hclean,
        recovers_flushed hf hclean hl (.inl hrenamed) (fun h => by simp [htruncated] at h) c⟩)
    | syncDir =>
      obtain ⟨hclean, base, baseNext, ds, hf, hrenamed, htruncated, hcount⟩ := hpoint
      exact .inr (.inl ⟨rfl, hclean, recovers_flushed hf hclean hl (.inr ⟨hrenamed, hcount⟩)
        (fun h => by simp [htruncated] at h) c⟩)
    | truncate =>
      obtain ⟨hclean, base, baseNext, ds, hf, hrenamed, htruncated, -⟩ := hpoint
      exact .inr (.inl ⟨rfl, hclean,
        recovers_flushed hf hclean hl (.inl hrenamed) (fun h => by simp [htruncated] at h) c⟩)
    | syncTruncate =>
      obtain ⟨hclean, base, baseNext, ds, hf, hrenamed, hbase⟩ := hpoint
      exact .inr (.inl ⟨rfl, hclean,
        recovers_flushed hf hclean hl (.inl hrenamed) (fun _ => ⟨hrenamed, hbase⟩) c⟩)

/-- What a crash leaves can be opened, and every blob in it is whole.  Without a failed flush
it is the flushed map with some of the pending changes made to it, none of them before the
flush has appended them. -/
theorem FileInv.survives (hi : FileInv crc s) (c : Survival) :
    ∃ map n, Survives crc s c map ∧ (s.appending = false → n = 0) ∧
      (s.appending = true → AllClean s.files) ∧
      (s.history.failed = false →
        map = applyDeltas s.history.slots (s.manifest.pendingLog.take n)) := by
  have hl := hi.ledger
  rcases hi.waiting_or_flushed c with ⟨happending, hw⟩ | ⟨happending, hclean, hmap⟩ |
    ⟨happending, hclean, hlog⟩
  · obtain ⟨map, hmap, hexact⟩ := hw.recovers hl c
    exact ⟨map, 0, hmap, fun _ => rfl, fun h => absurd h (by simp [happending]), hexact⟩
  · refine ⟨_, s.manifest.pendingLog.length, hmap, fun h => absurd h (by simp [happending]),
      fun _ => hclean, fun _ => ?_⟩
    rw [take_length, hl.entries]
  · obtain ⟨map, n, hmap, hexact⟩ := hlog
    exact ⟨map, n, hmap, fun h => absurd h (by simp [happending]), fun _ => hclean, hexact⟩

lemma Survives.openStore {c : Survival} (h : Survives crc s c map) :
    ∃ t, openStore crc (s.files.crash c) = .ok t ∧ FileInv crc t ∧
      t.manifest.entries.lookup = map ∧ t.history.slots = map ∧
      t.files.data = (s.files.crash c).data ∧ t.files.integrity = (s.files.crash c).integrity := by
  obtain ⟨m, hm, hlookup, hsound, hcapacity, hfree, hpending, base, baseNext, ds, hsnapshot, hlog,
    hload, hexact⟩ := load_of_recovers h.recovers h.one
  refine ⟨_, by rw [Store.openStore, hm], ?_, hlookup, hlookup, rfl, rfl⟩
  have hstored : ∀ guid slot, map guid = some slot →
      ∃ image, Stored crc (s.files.crash c) slot guid image := by
    intro guid slot hslot
    obtain ⟨hsynced, image, hstored⟩ := h.whole guid slot hslot
    exact ⟨image, hstored.of_same (hsynced.same_crash c)⟩
  refine ⟨⟨hsound, hcapacity, ?_, ?_, fun guid slot hslot => ?_, ?_, ?_, ?_, fun guid => ?_, ?_⟩,
    fun _ _ => rfl, fun _ _ => rfl, ⟨base, baseNext, ds, ?_, rfl⟩, fun _ => ⟨hpending, rfl⟩⟩
  · rw [hpending]
    rfl
  · exact hlookup ▸ h.one
  · exact .inl (mem_entrySlots.mpr ⟨guid, hslot⟩)
  · simp [hpending]
  · simp [hpending]
  · simp [hpending]
  · cases hslot : m.entries.lookup guid with
    | none => exact .inl ⟨hslot, by simp [served, readBlob, hslot]⟩
    | some slot =>
      obtain ⟨image, hstored⟩ := hstored guid slot ((congrFun hlookup guid).symm.trans hslot)
      refine .inr ⟨slot, image, hslot, ?_, ⟨hstored.pages, hstored.record⟩, ⟨fun _ => rfl, rfl⟩⟩
      simp only [served, readBlob_of_stored hslot hstored]
  · rw [hpending]
    exact List.Forall₂.nil
  · refine ⟨hsnapshot, hlog, rfl, rfl, hload, .of_flushed (hexact.trans hlookup.symm),
      fun _ => hexact.trans hlookup.symm, fun _ _ _ => ⟨fun _ => rfl, rfl⟩⟩

/-- Every blob with an image is read back as this image, and there are no others. -/
def Serves (crc : List Byte → UInt32) (t : FileStore) (images : Guid → Option Image) : Prop :=
  ∀ guid, match images guid with
    | some image => readBlob crc t.files t.manifest guid = .ok image
    | none => t.manifest.entries.lookup guid = none

/-- A crash that leaves a map serves the blobs in its slots. -/
lemma Survives.serves {c : Survival} {images : Guid → Option Image} (h : Survives crc s c map)
    (hshows : Shows crc s.files map images) :
    ∃ t, Store.openStore crc (s.files.crash c) = .ok t ∧ Serves crc t images := by
  obtain ⟨t, hopen, -, hlookup, -, hdata, hintegrity⟩ := h.openStore
  refine ⟨t, hopen, fun guid => ?_⟩
  have hentry : t.manifest.entries.lookup guid = map guid := congrFun hlookup guid
  rcases hshows guid with ⟨hslot, himage⟩ | ⟨slot, image, hslot, himage, hstored, hsync⟩
  · simp only [himage]
    exact hentry.trans hslot
  · simp only [himage]
    have hsame := hsync.same_crash c
    refine readBlob_of_stored (hentry.trans hslot) (hstored.of_same ⟨?_, ?_⟩)
    · rw [hdata]
      exact hsame.pages
    · rw [hintegrity]
      exact hsame.record

/-- A crash of a store in which no flush has failed. -/
lemma FileInv.serves (hi : FileInv crc s) (hok : s.history.failed = false) (c : Survival) :
    ∃ t n, Store.openStore crc (s.files.crash c) = .ok t ∧ (s.appending = false → n = 0) ∧
      Serves crc t (applyChanges s.history.images (s.history.changes.take n)) := by
  obtain ⟨map, n, hmap, hzero, hclean, hexact⟩ := hi.survives c
  have hsynced : AllSynced s.files (s.manifest.pendingLog.take n) := by
    intro guid slot hset
    cases happending : s.appending with
    | true => exact (hclean happending).synced slot
    | false => simp [hzero happending] at hset
  have hshows := hi.ledger.shows.advance
    (forall₂_take n hi.ledger.pending) hsynced
  rw [← hexact hok] at hshows
  obtain ⟨t, hopen, hserves⟩ := hmap.serves hshows
  exact ⟨t, n, hopen, hzero, hserves⟩

/-! ## Every run -/

lemma inv_created (crc : List Byte → UInt32) : FileInv crc .created := by
  have hload : Loadable (∅ : Entries) 0 [] :=
    ⟨fun _ _ _ h => by simp at h, fun _ _ h => by simp at h, Nat.zero_le _, by simp,
      fun _ _ h => by simp at h, fun before guid slot after h => by simp at h⟩
  refine ⟨⟨⟨nodup_nil, fun slot hslot => ?_⟩, Nat.zero_le _, rfl, fun _ _ _ h => ?_,
    fun _ _ h => ?_, fun _ _ h => ?_, fun _ _ h => ?_, fun _ _ _ h => ?_,
    fun _ => .inl ⟨rfl, rfl⟩, List.Forall₂.nil⟩, fun _ _ => rfl, fun _ _ => rfl,
    ⟨∅, 0, [], ⟨rfl, rfl, rfl, rfl, hload, .of_flushed rfl, fun _ => rfl, fun _ _ h => ?_⟩, rfl⟩,
    fun _ => ⟨rfl, rfl⟩⟩
  · exact absurd hslot not_mem_nil
  all_goals simp [FileStore.created] at h

variable {call : FileCall}

/-- Where a call can be made: nothing but a reopen comes between the points of another. -/
lemma phase_of_fileStep (h : fileStep crc s call = some s') : match call with
    | .write _ | .delete _ | .flush => s.phase = .idle
    | .failWrite _ => ∃ point prepared, s.phase = .writing point prepared
    | .failAppend _ => s.phase = .flushing .append ∨ s.phase = .flushing .syncLog
    | .failSnapshot _ => s.phase = .flushing .rename ∨ s.phase = .flushing .syncDir
    | .failTruncate _ => s.phase = .flushing .truncate ∨ s.phase = .flushing .syncTruncate
    | .advance | .reopen _ => True := by
  cases call <;> simp only [fileStep] at h ⊢ <;> split at h <;> simp_all

/-- Every step keeps the invariant, if a failed append leaves whole frames. -/
theorem fileInv_step (hi : FileInv crc s) (hwhole : WholeFrames crc s call)
    (h : fileStep crc s call = some s') : FileInv crc s' := by
  cases call with
  | write writes =>
    have hphase := phase_of_fileStep h
    simp only [fileStep, hphase] at h
    split_ifs at h with hnil hcapacity
    · exact Option.some.inj h ▸ hi
    · exact Option.some.inj h ▸ inv_write hi hphase writes hcapacity
  | delete guid =>
    have hphase := phase_of_fileStep h
    simp only [fileStep, hphase, Option.some.injEq] at h
    exact h ▸ inv_delete hi hphase guid
  | flush =>
    have hphase := phase_of_fileStep h
    simp only [fileStep, hphase, Option.some.injEq] at h
    subst h
    obtain ⟨hwaiting, hundirty⟩ := hi.phaseInv hphase
    have hl := hi.ledgerAt hphase
    refine ⟨hl, hi.data, hi.integrity, ?_, hundirty⟩
    exact hwaiting.of_frame [] hl (SameLog.refl _) (fun slot _ => sameSlot_of_eq rfl rfl slot)
      (append_nil _).symm rfl rfl
  | advance =>
    cases hphase : s.phase with
    | idle => simp [fileStep, hphase] at h
    | writing point prepared =>
      cases point <;> simp only [fileStep, hphase, Option.some.injEq] at h <;> subst h
      · exact inv_pwrite hi hphase
      · exact inv_records hi hphase
      · exact inv_publish hi hphase
    | flushing point =>
      simp only [fileStep, hphase] at h
      cases point with
      | syncData => exact inv_syncData hi hphase h
      | syncIntegrity => exact inv_syncIntegrity hi hphase h
      | append => exact inv_append hi hphase h
      | syncLog => exact inv_syncLog hi hphase h
      | rename => exact inv_rename hi hphase h
      | syncDir => exact inv_syncDir hi hphase h
      | truncate => exact inv_truncate hi hphase h
      | syncTruncate => exact inv_syncTruncate hi hphase h
  | failWrite done =>
    obtain ⟨point, prepared, hphase⟩ := phase_of_fileStep h
    simp only [fileStep, hphase] at h
    exact inv_failWrite hi hphase h
  | failAppend kept =>
    rcases phase_of_fileStep h with hphase | hphase <;> simp only [fileStep, hphase] at h
    · obtain ⟨⟨base, baseNext, ds, hu, -⟩, hclean⟩ := hi.phaseInv hphase
      exact Option.some.inj h ▸ inv_failAppend hi hphase hu hclean hwhole
    · obtain ⟨hclean, base, baseNext, ds, hu, -⟩ := hi.phaseInv hphase
      exact Option.some.inj h ▸ inv_failAppend hi hphase hu hclean hwhole
  | failSnapshot landed =>
    rcases phase_of_fileStep h with hphase | hphase <;> simp only [fileStep, hphase] at h
    · obtain ⟨hclean, base, baseNext, ds, hf, hrenamed, htruncated⟩ := hi.phaseInv hphase
      exact Option.some.inj h ▸ inv_failSnapshot hi hphase hf hclean htruncated
        (.inl hrenamed) landed
    · obtain ⟨hclean, base, baseNext, ds, hf, hrenamed, htruncated, hcount⟩ := hi.phaseInv hphase
      exact Option.some.inj h ▸
        inv_failSnapshot hi hphase hf hclean htruncated (.inr ⟨hrenamed, hcount⟩) landed
  | failTruncate gone =>
    rcases phase_of_fileStep h with hphase | hphase <;> simp only [fileStep, hphase] at h
    · obtain ⟨hclean, base, baseNext, ds, hf, hrenamed, -, hbase⟩ := hi.phaseInv hphase
      exact Option.some.inj h ▸ inv_failTruncate hi hphase hf hclean hrenamed hbase gone
    · obtain ⟨hclean, base, baseNext, ds, hf, hrenamed, hbase⟩ := hi.phaseInv hphase
      exact Option.some.inj h ▸ inv_failTruncate hi hphase hf hclean hrenamed hbase gone
  | reopen c =>
    obtain ⟨map, -, hmap, -⟩ := hi.survives c
    obtain ⟨t, hopen, hinv, -⟩ := hmap.openStore
    simp only [fileStep, hopen, Except.toOption, Option.some.injEq] at h
    exact h ▸ hinv

lemma fileInv_run {calls : List FileCall}
    (hrun : Path (fileStep crc) (WholeFrames crc) .created calls s) : FileInv crc s :=
  hrun.invariant (fun _ _ _ hi hwhole h => fileInv_step hi hwhole h) (inv_created crc)

/-- No flush fails. -/
def FlushSucceeds : FileStore → FileCall → Prop
  | _, .failAppend _ => False
  | _, .failSnapshot _ => False
  | _, .failTruncate _ => False
  | _, _ => True

instance : (call : FileCall) → Decidable (FlushSucceeds s call)
  | .failAppend _ | .failSnapshot _ | .failTruncate _ => instDecidableFalse
  | .write _ | .delete _ | .flush | .advance | .failWrite _ | .reopen _ => instDecidableTrue

lemma FlushSucceeds.wholeFrames (h : FlushSucceeds s call) : WholeFrames crc s call := by
  cases call with
  | failAppend kept => exact h.elim
  | _ => trivial

lemma failed_advanceFlush {point : FlushPoint} (h : advanceFlush crc s point = some s')
    (hok : s.history.failed = false) : s'.history.failed = false := by
  cases point with
  | syncIntegrity =>
    simp only [advanceFlush] at h
    by_cases hdirty : s.manifestDirty = true
    · rw [if_pos hdirty] at h
      exact Option.some.inj h ▸ hok
    · rw [if_neg hdirty] at h
      exact Option.some.inj h ▸ rfl
  | append =>
    simp only [advanceFlush] at h
    split_ifs at h
    · exact Option.some.inj h ▸ rfl
    · exact Option.some.inj h ▸ hok
  | syncLog =>
    simp only [advanceFlush] at h
    split_ifs at h
    · exact Option.some.inj h ▸ hok
    · exact Option.some.inj h ▸ rfl
  | rename =>
    simp only [advanceFlush] at h
    split_ifs at h
    exact Option.some.inj h ▸ hok
  | syncTruncate => exact Option.some.inj h ▸ rfl
  | _ => exact Option.some.inj h ▸ hok

lemma failed_step (hflush : FlushSucceeds s call) (h : fileStep crc s call = some s')
    (hok : s.history.failed = false) : s'.history.failed = false := by
  cases call with
  | write writes =>
    simp only [fileStep, phase_of_fileStep h] at h
    split_ifs at h
    · exact Option.some.inj h ▸ hok
    · exact Option.some.inj h ▸ hok
  | delete guid =>
    simp only [fileStep, phase_of_fileStep h, deleteBlob] at h
    rw [← Option.some.inj h]
    by_cases hmem : guid ∈ s.manifest.entries
    · rw [if_pos hmem]
      exact hok
    · rw [if_neg hmem]
      exact hok
  | flush =>
    simp only [fileStep, phase_of_fileStep h] at h
    exact Option.some.inj h ▸ hok
  | advance =>
    cases hphase : s.phase with
    | idle => simp [fileStep, hphase] at h
    | writing point prepared =>
      cases point <;> simp only [fileStep, hphase] at h <;> exact Option.some.inj h ▸ hok
    | flushing point =>
      simp only [fileStep, hphase] at h
      exact failed_advanceFlush h hok
  | failWrite done =>
    obtain ⟨point, prepared, hphase⟩ := phase_of_fileStep h
    simp only [fileStep, hphase] at h
    cases point with
    | pwrite | records => exact Option.some.inj h ▸ hok
    | publish => simp [failWrite] at h
  | failAppend kept | failSnapshot landed | failTruncate gone => exact hflush.elim
  | reopen c =>
    simp only [fileStep, openStore] at h
    split at h
    · simp [Except.toOption] at h
    · exact Option.some.inj h ▸ rfl

/-- Crash atomicity: after any run in which no flush fails, and any crash, the store opens.
It serves the blobs of the last flush that was through, with a part of the changes made since,
and with none of them unless the flush in progress has appended them to the log.  Every blob it
serves is read back as it was written. -/
theorem crash_atomicity {calls : List FileCall}
    (hrun : Path (fileStep crc) FlushSucceeds .created calls s) (c : Survival) :
    ∃ t n, openStore crc (s.files.crash c) = .ok t ∧ (s.appending = false → n = 0) ∧
      ∀ guid, match applyChanges s.history.images (s.history.changes.take n) guid with
        | some image => readBlob crc t.files t.manifest guid = .ok image
        | none => t.manifest.entries.lookup guid = none := by
  have hi : FileInv crc s := fileInv_run (hrun.mono fun _ _ h => h.wholeFrames)
  have hok : s.history.failed = false :=
    hrun.invariant (fun _ _ _ hs hflush h => failed_step hflush h hs) rfl
  exact hi.serves hok c

/-- A blob's name for the runs below. -/
def guidA : Guid := ⟨List.replicate 16 7, List.length_replicate⟩

/-- One blob is written, and a flush is in the middle of its append. -/
def writeAndAppend : List FileCall :=
  [.write [(guidA, fun _ => zeroPage)], .advance, .advance, .advance, .flush, .advance, .advance,
    .advance]

/-- The blob is there with the image it was written with, or it is not there. -/
theorem crash_atomicity_writeAndAppend : ∃ s : FileStore,
    exec (fileStep (fun _ => 0)) .created writeAndAppend = some s ∧ s.appending = true ∧
    ∀ c, ∃ t, openStore (fun _ => 0) (s.files.crash c) = .ok t ∧
      (readBlob (fun _ => 0) t.files t.manifest guidA = .ok (fun _ => zeroPage) ∨
        t.manifest.entries.lookup guidA = none) := by
  obtain ⟨s, hexec, hrun, happending⟩ := path_of_guardedTo
    (show guardedTo (fileStep (fun _ => 0)) FlushSucceeds (fun s => s.appending = true) .created
      writeAndAppend = true by decide +kernel)
  have hhistory : (exec (fileStep (fun _ => 0)) .created writeAndAppend).map
      (fun s => (s.history.images, s.history.changes)) =
        some (fun _ => none, [.write guidA (fun _ => zeroPage)]) := by
    rfl
  rw [hexec, Option.map_some, Option.some.injEq, Prod.mk.injEq] at hhistory
  refine ⟨s, hexec, happending, fun c => ?_⟩
  obtain ⟨t, n, hopen, -, hserves⟩ := crash_atomicity hrun c
  refine ⟨t, hopen, ?_⟩
  have hguid := hserves guidA
  rw [hhistory.1, hhistory.2] at hguid
  cases n with
  | zero => exact .inr hguid
  | succ n => exact .inl (by simpa [applyChanges, applyChange] using hguid)

/-- A failed flush is recovered from, if the failed appends leave whole frames: when a later
flush has returned, the store opens with the slots of that flush. -/
theorem flushed_after_failure {calls : List FileCall}
    (hrun : Path (fileStep crc) (WholeFrames crc) .created calls s) (hidle : s.phase = .idle)
    (hok : s.history.failed = false) (c : Survival) :
    ∃ t, openStore crc (s.files.crash c) = .ok t ∧
      t.manifest.entries.lookup = s.history.slots := by
  obtain ⟨map, n, hmap, hzero, -, hexact⟩ := (fileInv_run hrun).survives c
  obtain ⟨t, hopen, -, hlookup, -⟩ := hmap.openStore
  obtain rfl : n = 0 := hzero (by simp [FileStore.appending, hidle])
  exact ⟨t, hopen, hlookup.trans (hexact hok)⟩

/-- Every unsynced operation happens. -/
def nothingLost : Survival := ⟨0, false, false, fun _ => 0, fun _ => 0⟩

/-- A blob is written; the append of its flush fails after some bytes, and a second flush
returns. -/
def retryAfterAppend (kept : ℕ) : List FileCall :=
  [.write [(guidA, fun _ => zeroPage)], .advance, .advance, .advance, .flush, .advance, .advance,
    .failAppend kept, .flush, .advance, .advance, .advance, .advance]

theorem flushed_after_failure_whole : ∃ s : FileStore, s.history.slots guidA = some 0 ∧
    ∀ c, ∃ t, openStore (fun _ => 0) (s.files.crash c) = .ok t ∧
      t.manifest.entries.lookup = s.history.slots := by
  obtain ⟨s, hexec, hrun, hslot, hok⟩ := path_of_guardedTo
    (show guardedTo (fileStep (fun _ => 0)) (WholeFrames (fun _ => 0))
      (fun s => s.history.slots guidA = some 0 ∧ s.history.failed = false) .created
      (retryAfterAppend 37) = true by decide +kernel)
  have hidle : (exec (fileStep (fun _ => 0)) .created (retryAfterAppend 37)).map
      FileStore.phase = some .idle := by
    rfl
  rw [hexec] at hidle
  exact ⟨s, hslot, fun c => flushed_after_failure hrun (Option.some.inj hidle) hok c⟩

lemma openStore_of_any {f : Files} {p : FileStore → Bool}
    (h : (openStore crc f).toOption.any p = true) : ∃ t, openStore crc f = .ok t ∧ p t = true := by
  cases hopen : openStore crc f with
  | error e => simp [hopen, Except.toOption] at h
  | ok t => exact ⟨t, rfl, by simpa [hopen, Except.toOption] using h⟩

/-- The failed append leaves the four bytes of the magic.  The second flush returns, and the
blob is not in the store that is opened then. -/
theorem flush_lost_after_torn_append : ∃ s t : FileStore,
    exec (fileStep (fun _ => 0)) .created (retryAfterAppend 4) = some s ∧
      s.phase = .idle ∧ s.history.failed = false ∧ s.history.slots guidA = some 0 ∧
      openStore (fun _ => 0) (s.files.crash nothingLost) = .ok t ∧
      t.manifest.entries.lookup guidA = none := by
  have hlost : (exec (fileStep (fun _ => 0)) .created (retryAfterAppend 4)).any (fun s =>
      (s.history.failed = false ∧ s.history.slots guidA = some 0) &&
        (openStore (fun _ => 0) (s.files.crash nothingLost)).toOption.any
          (fun t => t.manifest.entries.lookup guidA = none)) = true := by
    decide +kernel
  have hidle : (exec (fileStep (fun _ => 0)) .created (retryAfterAppend 4)).map
      FileStore.phase = some .idle := by
    rfl
  obtain ⟨s, hexec, hs⟩ := exists_of_exec_any hlost
  rw [hexec] at hidle
  simp only [Bool.and_eq_true, decide_eq_true_eq] at hs
  obtain ⟨⟨hok, hslot⟩, hcrash⟩ := hs
  obtain ⟨t, hopen, hnone⟩ := openStore_of_any hcrash
  exact ⟨s, t, hexec, Option.some.inj hidle, hok, hslot, hopen, of_decide_eq_true hnone⟩

end Store
end Holt
