import Holt.Store.Vacuum

/-!
# Slot ownership

Along every run of writes, deletes, flushes, vacuums and reopens, no slot has two uses, and no
slot that an opened store would find a blob in is given out (`slot_ownership`).

At each point of a vacuum the files are those of a store at rest (`Settled`), with changes in
free slots only, or they hold the new snapshot beside the old log (`Published`).  In between,
the manifest in memory is ahead of the files (`Relocating`).
-/

namespace Holt
namespace Store

open List Option FrameLog Transition
open scoped List

variable {crc : List Byte → UInt32} {s s' : FileStore} {plan : List SlotMove}
  {base : Entries} {baseNext : ℕ} {ds : List ManifestDelta}

/-! ## A store at rest -/

/-- Between two calls, with everything flushed: the files hold the manifest. -/
structure Settled (crc : List Byte → UInt32) (s : FileStore) (base : Entries) (baseNext : ℕ)
    (ds : List ManifestDelta) : Prop where
  idle : s.phase = .idle
  clean : s.manifestDirty = false
  sound : s.manifest.Sound []
  capacity : s.manifest.nextSlot ≤ maxSlots
  free : s.manifest.pendingFree = []
  pending : s.manifest.pendingLog = []
  shows : Shows crc s.files s.manifest.entries.lookup s.history.images
  slots : s.history.slots = s.manifest.entries.lookup
  changes : s.history.changes = []
  failed : s.history.failed = false
  snapshot : s.files.snapshot = encodeSnapshot base baseNext
  log : s.files.log = frames crc ds
  appended : s.files.appended = []
  renamed : s.files.renamed = none
  truncated : s.files.truncated = false
  loadable : Loadable base baseNext ds
  exact : applyDeltas base.lookup ds = s.manifest.entries.lookup

/-- The dirty flags are right. -/
structure Flagged (s : FileStore) : Prop where
  data : s.dataDirty = false → ∀ i, s.files.data.Clean i
  integrity : s.integrityDirty = false → ∀ slot, s.files.integrity.Clean slot

variable {m : Manifest} {reserved : List ℕ} {guid : Guid} {slot : ℕ}

lemma Manifest.Sound.not_reusable (h : m.Sound reserved)
    (hslot : m.entries.lookup guid = some slot) :
    slot ∉ m.reusable.slots := by
  intro hmem
  have hnodup := (nodup_append.mp h.nodup).2.1
  refine (nodup_append.mp hnodup).2.2 slot ?_ slot hmem rfl
  exact mem_append_left _ (mem_entrySlots.mpr ⟨guid, hslot⟩)

variable {f : Files}

lemma Shows.whole {map : SlotMap} {images : Guid → Option Image} (h : Shows crc f map images)
    (hslot : map guid = some slot) : Synced f slot ∧ ∃ image, Stored crc f slot guid image := by
  rcases h guid with ⟨hnone, -⟩ | ⟨slot', image, hslot', -, hstored, hsynced⟩
  · exact absurd (hnone.symm.trans hslot) nofun
  · cases hslot'.symm.trans hslot
    exact ⟨hsynced, image, hstored⟩

namespace Settled

lemma fileInv (h : Settled crc s base baseNext ds) (hflags : Flagged s) : FileInv crc s := by
  have hnone : ∀ d, d ∉ s.manifest.pendingLog := by simp [h.pending]
  refine ⟨⟨?_, h.capacity, ?_, ?_, fun guid slot hslot => ?_, fun _ _ hset => absurd hset (hnone _),
    fun _ _ hset => absurd hset (hnone _), fun _ _ _ hset => absurd hset (hnone _), ?_, ?_⟩,
    hflags.data, hflags.integrity, ?_⟩
  · rw [h.idle]
    exact h.sound
  · rw [h.pending, h.slots]
    rfl
  · rw [h.slots]
    exact h.sound.oneEach
  · rw [h.slots] at hslot
    exact .inl (mem_entrySlots.mpr ⟨guid, hslot⟩)
  · rw [h.slots]
    exact h.shows
  · rw [h.pending, h.changes]
    exact List.Forall₂.nil
  · rw [h.idle]
    refine ⟨⟨base, baseNext, ds, ?_, h.appended⟩, fun _ => ⟨h.pending, h.failed⟩⟩
    refine { h with
      consistent := .of_flushed (h.exact.trans h.slots.symm)
      exact := fun _ => h.exact.trans h.slots.symm
      synced := fun guid slot hslot => ?_ }
    exact (h.shows.whole ((congrFun h.exact guid).symm.trans hslot)).1

lemma of_fileInv (hi : FileInv crc s) (hidle : s.phase = .idle) (hclean : s.manifestDirty = false)
    (hfree : s.manifest.pendingFree = []) : ∃ base baseNext ds, Settled crc s base baseNext ds := by
  obtain ⟨⟨base, baseNext, ds, hu, happended⟩, hundirty⟩ := hi.phaseInv hidle
  obtain ⟨hpending, hfailed⟩ := hundirty hclean
  have hl := hi.ledgerAt hidle
  have hslots : s.history.slots = s.manifest.entries.lookup := by
    rw [hl.entries, hpending]
    rfl
  have hchanges : s.history.changes = [] := by
    have hmatch := hl.pending
    rw [hpending] at hmatch
    exact forall₂_nil_left_iff.mp hmatch
  exact ⟨base, baseNext, ds, hidle, hclean, hl.sound, hl.capacity, hfree, hpending,
    hslots ▸ hl.shows, hslots, hchanges, hfailed, hu.snapshot, hu.log, happended, hu.renamed,
    hu.truncated, hu.loadable, (hu.exact hfailed).trans hslots⟩

lemma of_files (h : Settled crc s base baseNext ds) {f : Files} (hlog : SameLog s.files f)
    (hsame : ∀ guid slot, s.manifest.entries.lookup guid = some slot → SameSlot s.files f slot) :
    Settled crc { s with files := f } base baseNext ds :=
  { h with
    shows := h.shows.of_same hsame
    snapshot := hlog.snapshot.trans h.snapshot
    log := hlog.log.trans h.log
    appended := hlog.appended.trans h.appended
    renamed := hlog.renamed.trans h.renamed
    truncated := hlog.truncated.trans h.truncated }

lemma survives (h : Settled crc s base baseNext ds) (c : Survival) :
    Survives crc s c s.manifest.entries.lookup := by
  refine ⟨⟨base, baseNext, ds, [], ?_, ?_, logHead_nil, h.loadable, h.exact⟩, h.sound.oneEach,
    fun _ _ hslot => h.shows.whole hslot⟩
  · simp only [Files.crash, h.renamed, getD_none, ite_self, h.snapshot]
  · simp [Files.crash, h.truncated, h.appended, h.log]

end Settled

lemma sameLog_syncAll (f : Files) : SameLog f f.syncAll := ⟨rfl, rfl, rfl, rfl, rfl⟩

lemma sameSlot_syncAll (f : Files) (slot : ℕ) : SameSlot f f.syncAll slot :=
  ⟨fun _ => ⟨rfl, fun _ => rfl⟩, rfl, fun _ => rfl⟩

lemma synced_syncAll (f : Files) (slot : ℕ) : Synced f.syncAll slot := ⟨fun _ => rfl, rfl⟩

lemma Settled.syncAll (h : Settled crc s base baseNext ds) :
    Settled crc { s with files := s.files.syncAll } base baseNext ds :=
  h.of_files (sameLog_syncAll s.files) (fun _ slot _ => sameSlot_syncAll s.files slot)

lemma flagged_syncAll (s : FileStore) : Flagged { s with files := s.files.syncAll } :=
  ⟨fun _ _ => rfl, fun _ _ => rfl⟩

/-! ## The moves -/

/-- The moves are made in memory, and the files are as they were, with the copies in them. -/
structure Relocating (crc : List Byte → UInt32) (s : FileStore) (plan : List SlotMove)
    (backup : Manifest) (base : Entries) (baseNext : ℕ) (ds : List ManifestDelta) : Prop where
  rest : Settled crc { s with manifest := backup } base baseNext ds
  moves : Plan backup.entries backup.reusable.slots plan
  copied : Copied crc s.files plan
  synced : ∀ item ∈ plan, Synced s.files item.toSlot
  sound : s.manifest.Sound []
  next : s.manifest.nextSlot ≤ backup.nextSlot
  entries : s.manifest.entries.lookup = relocated plan backup.entries.lookup
  free : s.manifest.pendingFree = []
  pending : s.manifest.pendingLog = []

/-- A blob is in the slot the moves have for it, with the image it had. -/
lemma Copied.stored {entries : Entries} {free : List ℕ} {image : Image}
    (hcopied : Copied crc f plan) (hp : Plan entries free plan)
    (hslot : entries.lookup guid = some slot) (hold : Stored crc f slot guid image) :
    ∃ slot', relocated plan entries.lookup guid = some slot' ∧ Stored crc f slot' guid image ∧
      (slot' = slot ∨ ∃ item ∈ plan, item.toSlot = slot') := by
  cases hmoved : movedTo plan guid with
  | none =>
    refine ⟨slot, ?_, hold, .inl rfl⟩
    simpa only [relocated, hmoved, none_or] using hslot
  | some slot' =>
    obtain ⟨item, hitem, rfl, rfl⟩ := movedTo_eq_some hmoved
    obtain ⟨image', hfrom, hto⟩ := hcopied item hitem
    cases hslot.symm.trans (hp.sources item hitem)
    -- the slot holds one image
    obtain rfl : image' = image := funext fun page =>
      Option.some.inj ((hfrom.pages page).symm.trans (hold.pages page))
    exact ⟨item.toSlot, by simp only [relocated, hmoved, some_or], hto, .inr ⟨item, hitem, rfl⟩⟩

namespace Relocating

variable {backup : Manifest}

lemma shows (h : Relocating crc s plan backup base baseNext ds) {map : SlotMap}
    (hmap : ∀ guid, map guid = backup.entries.lookup guid ∨
      map guid = relocated plan backup.entries.lookup guid) :
    OneEach map ∧ Shows crc s.files map s.history.images := by
  have hrest := h.rest
  refine ⟨h.moves.oneEach hrest.sound.oneEach
    (fun _ _ hslot => hrest.sound.not_reusable hslot) hmap,
    fun guid => ?_⟩
  rcases hmap guid with hold | hnew
  · rw [hold]
    exact hrest.shows guid
  · rw [hnew]
    rcases hrest.shows guid with ⟨hnone, himage⟩ | ⟨slot, image, hslot, himage, hstored, hsynced⟩
    · have hkept := h.moves.isSome_relocated guid
      rw [show backup.entries.lookup guid = none from hnone] at hkept
      exact .inl ⟨not_isSome_iff_eq_none.mp (by simp [hkept]), himage⟩
    · obtain ⟨slot', hslot', hstored', hcase⟩ := h.copied.stored h.moves hslot hstored
      refine .inr ⟨slot', image, hslot', himage, hstored', ?_⟩
      rcases hcase with rfl | ⟨item, hitem, rfl⟩
      · exact hsynced
      · exact h.synced item hitem

/-- The new snapshot and the old log together: a blob in the log is where it was. -/
lemma mixed (h : Relocating crc s plan backup base baseNext ds) (guid : Guid) :
    applyDeltas s.manifest.entries.lookup ds guid = backup.entries.lookup guid ∨
      applyDeltas s.manifest.entries.lookup ds guid =
        relocated plan backup.entries.lookup guid := by
  by_cases hmem : ∃ d ∈ ds, d.guid = guid
  · refine .inl ((applyDeltas_eq_of_mem hmem _ base.lookup).trans ?_)
    exact congrFun h.rest.exact guid
  · refine .inr ((applyDeltas_of_not_mem (fun d hd heq => hmem ⟨d, hd, heq⟩) _).trans ?_)
    exact congrFun h.entries guid

end Relocating

/-- The new snapshot is in place, beside the old log. -/
structure Published (crc : List Byte → UInt32) (s : FileStore) (plan : List SlotMove)
    (ds : List ManifestDelta) : Prop where
  idle : s.phase = .idle
  clean : s.manifestDirty = false
  sound : s.manifest.Sound []
  capacity : s.manifest.nextSlot ≤ maxSlots
  free : s.manifest.pendingFree = []
  pending : s.manifest.pendingLog = []
  changes : s.history.changes = []
  failed : s.history.failed = false
  shows : Shows crc s.files s.manifest.entries.lookup s.history.images
  snapshot : s.files.snapshot = encodeSnapshot s.manifest.entries s.manifest.nextSlot
  log : s.files.log = frames crc ds
  appended : s.files.appended = []
  renamed : s.files.renamed = none
  loadable : Loadable s.manifest.entries s.manifest.nextSlot ds
  one : OneEach (applyDeltas s.manifest.entries.lookup ds)
  mixed : Shows crc s.files (applyDeltas s.manifest.entries.lookup ds) s.history.images
  /-- Without moves the log says nothing new. -/
  unmoved : plan = [] → applyDeltas s.manifest.entries.lookup ds = s.manifest.entries.lookup ∧
    s.history.slots = s.manifest.entries.lookup

variable {backup : Manifest}

lemma Relocating.publish (h : Relocating crc s plan backup base baseNext ds)
    (hcount : s.manifest.entries.entries.length < 2 ^ 32) :
    Published crc { s with files := { s.files with
      snapshot := encodeSnapshot s.manifest.entries s.manifest.nextSlot } } plan ds := by
  have hrest := h.rest
  have hcapacity : s.manifest.nextSlot ≤ maxSlots := h.next.trans hrest.capacity
  have hmoved := h.shows (fun guid => .inr (congrFun h.entries guid))
  have hmixed := h.shows h.mixed
  have hsame : ∀ slot, SameSlot s.files { s.files with
      snapshot := encodeSnapshot s.manifest.entries s.manifest.nextSlot } slot :=
    fun slot => sameSlot_of_eq (by rfl) (by rfl) slot
  refine ⟨hrest.idle, hrest.clean, h.sound, hcapacity, h.free, h.pending, hrest.changes,
    hrest.failed, hmoved.2.of_same (fun _ slot _ => hsame slot), rfl, hrest.log, hrest.appended,
    hrest.renamed, ?_, hmixed.1, hmixed.2.of_same (fun _ slot _ => hsame slot), ?_⟩
  · exact ⟨h.sound.oneEach, fun _ _ hslot => h.sound.entry_lt hslot, hcapacity, hcount,
      hrest.loadable.slots, hrest.loadable.noConflict⟩
  · rintro rfl
    have hentries : s.manifest.entries.lookup = backup.entries.lookup := h.entries
    refine ⟨funext fun guid => ?_, hrest.slots.trans hentries.symm⟩
    change applyDeltas s.manifest.entries.lookup ds guid = _
    rw [congrFun hentries guid]
    exact (h.mixed guid).elim id id

namespace Published

lemma of_files (h : Published crc s plan ds) {f : Files} (hdata : f.data = s.files.data)
    (hintegrity : f.integrity = s.files.integrity) (hsnapshot : f.snapshot = s.files.snapshot)
    (hlog : f.log = s.files.log) (happended : f.appended = s.files.appended)
    (hrenamed : f.renamed = s.files.renamed) :
    Published crc { s with files := f } plan ds :=
  have hsame : ∀ slot, SameSlot s.files f slot := sameSlot_of_eq hdata hintegrity
  { h with
    shows := h.shows.of_same (fun _ slot _ => hsame slot)
    snapshot := hsnapshot.trans h.snapshot
    log := hlog.trans h.log
    appended := happended.trans h.appended
    renamed := hrenamed.trans h.renamed
    mixed := h.mixed.of_same (fun _ slot _ => hsame slot) }

lemma cutLog (h : Published crc s plan ds) :
    Settled crc (cutLog s) s.manifest.entries s.manifest.nextSlot [] :=
  { h with
    shows := h.shows.of_same (fun _ slot _ => sameSlot_of_eq (by rfl) (by rfl) slot)
    slots := rfl
    log := rfl
    truncated := rfl
    loadable := h.loadable.cut
    exact := rfl }

lemma keepLog (h : Published crc s plan ds) (hnil : plan = []) :
    Settled crc { s with files := { s.files with truncated := false } } s.manifest.entries
      s.manifest.nextSlot ds :=
  { h with
    shows := h.shows.of_same (fun _ slot _ => sameSlot_of_eq (by rfl) (by rfl) slot)
    slots := (h.unmoved hnil).2
    truncated := rfl
    exact := (h.unmoved hnil).1 }

lemma survives (h : Published crc s plan ds) (c : Survival) :
    ∃ map, Survives crc s c map ∧ Shows crc s.files map s.history.images := by
  have hsnapshot : (s.files.crash c).snapshot =
      encodeSnapshot s.manifest.entries s.manifest.nextSlot := by
    simp only [Files.crash, h.renamed, getD_none, ite_self, h.snapshot]
  by_cases hcut : (s.files.truncated && c.truncated) = true
  · refine ⟨s.manifest.entries.lookup, ⟨⟨_, _, [], [], hsnapshot, ?_, logHead_nil, h.loadable.cut,
      rfl⟩, h.sound.oneEach, fun _ _ hslot => h.shows.whole hslot⟩, h.shows⟩
    simp only [Files.crash, if_pos hcut]
    rfl
  · refine ⟨_, ⟨⟨_, _, ds, [], hsnapshot, ?_, logHead_nil, h.loadable, rfl⟩, h.one,
      fun _ _ hslot => h.mixed.whole hslot⟩, h.mixed⟩
    simp only [Files.crash, if_neg hcut, h.appended, take_nil, h.log]

end Published

/-! ## Flush and free slots -/

/-- Slots wait to become reusable only while there is something to flush. -/
def FreeMarked (s : FileStore) : Prop :=
  match s.phase with
  | .idle | .writing _ _ | .flushing .syncData | .flushing .syncIntegrity =>
    s.manifestDirty = false → s.manifest.pendingFree = []
  | .flushing _ => s.manifestDirty = false

/-- A flush goes on, or has returned with nothing left to flush. -/
def FlushedOrFlushing (s : FileStore) : Prop :=
  (∃ point, s.phase = .flushing point) ∨ (s.phase = .idle ∧ s.manifestDirty = false)

lemma freeMarked_finishFlush : FreeMarked (finishFlush s) := fun _ => rfl

lemma advanceFlush_marked {point : FlushPoint} (hphase : s.phase = .flushing point)
    (hm : FreeMarked s) (h : advanceFlush crc s point = some s') :
    FreeMarked s' ∧ FlushedOrFlushing s' := by
  cases point <;> simp only [FreeMarked, hphase] at hm
  case syncData | syncDir | truncate =>
    cases h
    exact ⟨hm, .inl ⟨_, rfl⟩⟩
  case rename =>
    obtain ⟨-, rfl⟩ := guard_eq_some.mp h
    exact ⟨hm, .inl ⟨_, rfl⟩⟩
  case syncTruncate =>
    cases h
    exact ⟨freeMarked_finishFlush, .inr ⟨rfl, hm⟩⟩
  case syncIntegrity =>
    simp only [advanceFlush] at h
    by_cases hdirty : s.manifestDirty = true
    · rw [if_pos hdirty] at h
      cases h
      exact ⟨rfl, .inl ⟨_, rfl⟩⟩
    · rw [if_neg hdirty] at h
      cases h
      exact ⟨hm, .inr ⟨rfl, Bool.eq_false_iff.mpr hdirty⟩⟩
  case append =>
    simp only [advanceFlush] at h
    split_ifs at h <;> cases h
    · exact ⟨freeMarked_finishFlush, .inr ⟨rfl, hm⟩⟩
    · exact ⟨hm, .inl ⟨_, rfl⟩⟩
  case syncLog =>
    simp only [advanceFlush] at h
    split_ifs at h <;> cases h
    · exact ⟨hm, .inl ⟨_, rfl⟩⟩
    · exact ⟨freeMarked_finishFlush, .inr ⟨rfl, hm⟩⟩

lemma openStore_free (h : openStore crc f = .ok s) :
    s.phase = .idle ∧ s.manifest.pendingFree = [] := by
  simp only [openStore] at h
  cases hload : load crc f.snapshot f.log with
  | error e => simp [hload] at h
  | ok m =>
    rw [hload] at h
    obtain rfl := Except.ok.inj h
    refine ⟨rfl, ?_⟩
    simp only [load] at hload
    repeat' split at hload <;> try contradiction
    exact Except.ok.inj hload ▸ rfl

lemma freeMarked_step {call : FileCall} (hm : FreeMarked s) (h : fileStep crc s call = some s') :
    FreeMarked s' := by
  cases call with
  | write writes =>
    have hphase := phase_of_fileStep h
    simp only [fileStep, hphase] at h
    obtain ⟨-, hfree, -⟩ := Manifest.reserveWriteEntries_frame writes s.manifest
    split_ifs at h with hnil hcapacity
    · exact Option.some.inj h ▸ hm
    · cases h
      simp only [FreeMarked, hphase] at hm
      exact fun hdirty => hfree.trans (hm hdirty)
  | delete guid =>
    have hphase := phase_of_fileStep h
    simp only [fileStep, hphase, Option.some.injEq] at h
    subst h
    unfold deleteBlob
    by_cases hmem : guid ∈ s.manifest.entries
    · rw [if_pos hmem]
      simp only [FreeMarked, FileStore.record, hphase]
      simp
    · rw [if_neg hmem]
      exact hm
  | flush =>
    have hphase := phase_of_fileStep h
    simp only [FreeMarked, hphase] at hm
    simp only [fileStep, hphase, Option.some.injEq] at h
    subst h
    exact hm
  | advance =>
    cases hphase : s.phase with
    | idle => simp [fileStep, hphase] at h
    | writing point prepared =>
      simp only [FreeMarked, hphase] at hm
      cases point <;> simp only [fileStep, hphase, Option.some.injEq] at h <;> subst h
      · exact hm
      · exact hm
      · exact fun hdirty => absurd hdirty Bool.false_ne_true.symm
    | flushing point =>
      simp only [fileStep, hphase] at h
      exact (advanceFlush_marked hphase hm h).1
  | failWrite done =>
    obtain ⟨point, prepared, hphase⟩ := phase_of_fileStep h
    simp only [FreeMarked, hphase] at hm
    simp only [fileStep, hphase] at h
    have hfree := fun slots => (releaseReservedSlots_frame s.manifest slots).2.1
    cases point with
    | pwrite | records =>
      cases h
      exact fun hdirty => (hfree _).trans (hm hdirty)
    | publish => simp [failWrite] at h
  | failAppend _ | failSnapshot _ | failTruncate _ =>
    simp only [fileStep] at h
    split at h <;> try contradiction
    all_goals
      cases h
      exact fun hdirty => absurd hdirty Bool.false_ne_true.symm
  | reopen c =>
    simp only [fileStep] at h
    cases hopen : openStore crc (s.files.crash c) with
    | error e => simp [hopen, Except.toOption] at h
    | ok t =>
      rw [hopen] at h
      cases h
      obtain ⟨hidle, hfree⟩ := openStore_free hopen
      simp only [FreeMarked, hidle]
      exact fun _ => hfree

/-! ## The points of a vacuum -/

/-- What holds at each point. -/
def PointInv (crc : List Byte → UInt32) (s : FileStore) : VacuumPoint → Prop
  | .flush => FileInv crc s ∧ FreeMarked s ∧ FlushedOrFlushing s
  | .copy plan => (∃ base baseNext ds, Settled crc s base baseNext ds) ∧
    Plan s.manifest.entries s.manifest.reusable.slots plan
  | .syncCopy plan => (∃ base baseNext ds, Settled crc s base baseNext ds) ∧
    Plan s.manifest.entries s.manifest.reusable.slots plan ∧ Copied crc s.files plan
  | .relocate plan => Flagged s ∧ (∃ base baseNext ds, Settled crc s base baseNext ds) ∧
    Plan s.manifest.entries s.manifest.reusable.slots plan ∧ Copied crc s.files plan ∧
    ∀ item ∈ plan, Synced s.files item.toSlot
  | .rename plan backup => Flagged s ∧
    ∃ base baseNext ds, Relocating crc s plan backup base baseNext ds
  | .syncDir plan backup => Flagged s ∧
    s.files.renamed = some (encodeSnapshot s.manifest.entries s.manifest.nextSlot) ∧
    s.manifest.entries.entries.length < 2 ^ 32 ∧ ∃ base baseNext ds,
    Relocating crc { s with files := { s.files with renamed := none } } plan backup base baseNext ds
  | .truncate plan _ => Flagged s ∧ ∃ ds, Published crc s plan ds
  | .syncTruncate plan _ => Flagged s ∧ ∃ ds, Published crc s plan ds
  | .trim _ => ∃ base baseNext ds, Settled crc s base baseNext ds
  | .syncTrim => ∃ base baseNext ds, Settled crc s base baseNext ds

def VacuumInv (crc : List Byte → UInt32) (v : VacuumStore) : Prop :=
  match v.vacuum with
  | none => FileInv crc v.store ∧ FreeMarked v.store
  | some point => PointInv crc v.store point

lemma Settled.ready (h : Settled crc s base baseNext ds) (hflags : Flagged s) :
    FileInv crc s ∧ FreeMarked s := by
  refine ⟨h.fileInv hflags, ?_⟩
  simp only [FreeMarked, h.idle]
  exact fun _ => h.free

lemma Settled.ready_syncAll (h : Settled crc s base baseNext ds) :
    FileInv crc { s with files := s.files.syncAll } ∧
      FreeMarked { s with files := s.files.syncAll } :=
  h.syncAll.ready (flagged_syncAll s)

lemma Settled.copyMoves (h : Settled crc s base baseNext ds)
    (hp : Plan s.manifest.entries s.manifest.reusable.slots plan) :
    ∃ f, copyMoves crc s.files plan = some f ∧ Copied crc f plan ∧
      Settled crc { s with files := f } base baseNext ds := by
  have hfree : ∀ guid slot, s.manifest.entries.lookup guid = some slot →
      slot ∉ plan.map SlotMove.toSlot := by
    intro guid slot hslot hmem
    obtain ⟨item, hitem, rfl⟩ := List.mem_map.mp hmem
    exact h.sound.not_reusable hslot (hp.free item hitem)
  obtain ⟨f, hcopy, hcopied, hlog, hsame⟩ := copyMoves_spec
    (fun item hitem => (h.shows.whole (hp.sources item hitem)).2) hp.targets
    (fun item hitem => hfree item.guid item.fromSlot (hp.sources item hitem))
  exact ⟨f, hcopy, hcopied, h.of_files hlog fun guid slot hslot =>
    hsame slot (hfree guid slot hslot)⟩

lemma Plan.take {entries : Entries} {free : List ℕ} (hp : Plan entries free plan) (n : ℕ) :
    Plan entries free (plan.take n) where
  guids := hp.guids.sublist ((take_sublist n plan).map _)
  targets := hp.targets.sublist ((take_sublist n plan).map _)
  sources item hitem := hp.sources item (mem_of_mem_take hitem)
  free item hitem := hp.free item (mem_of_mem_take hitem)

lemma Settled.relocate (h : Settled crc s base baseNext ds)
    (hp : Plan s.manifest.entries s.manifest.reusable.slots plan)
    (hcopied : Copied crc s.files plan) (hsynced : ∀ item ∈ plan, Synced s.files item.toSlot)
    (hm : (if plan = [] then some s.manifest.trimTrailingFreeSlots
      else s.manifest.applyRelocationPlan plan) = some m) :
    Relocating crc { s with manifest := m } plan s.manifest base baseNext ds := by
  by_cases hnil : plan = []
  · rw [if_pos hnil] at hm
    cases hm
    obtain ⟨hsound, hnext⟩ := Manifest.trimTrailingFreeSlots_sound h.sound
    refine ⟨h, hp, hcopied, hsynced, hsound, hnext, ?_, rfl, h.pending⟩
    subst hnil
    rfl
  · rw [if_neg hnil] at hm
    obtain ⟨m', happly, hsound, hnext, hentries, hfree, hpending, -⟩ :=
      Manifest.applyRelocationPlan_spec h.sound h.free hp hnil
    cases happly.symm.trans hm
    exact ⟨h, hp, hcopied, hsynced, hsound, hnext, hentries, hfree, hpending.trans h.pending⟩

/-- Nothing was moved: the manifest after the trim is at rest too. -/
lemma Relocating.settled (h : Relocating crc s [] backup base baseNext ds) :
    Settled crc s base baseNext ds := by
  have hrest := h.rest
  have hentries : s.manifest.entries.lookup = backup.entries.lookup := h.entries
  exact { hrest with
    sound := h.sound
    capacity := h.next.trans hrest.capacity
    free := h.free
    pending := h.pending
    shows := hentries ▸ hrest.shows
    slots := hrest.slots.trans hentries.symm
    exact := hrest.exact.trans hentries.symm }

lemma Relocating.restore (h : Relocating crc s plan backup base baseNext ds) :
    Settled crc (restoreBackup s plan backup) base baseNext ds := by
  unfold restoreBackup
  by_cases hnil : plan = []
  · rw [if_pos hnil]
    subst hnil
    exact h.settled
  · rw [if_neg hnil]
    have hrest := h.rest
    exact { hrest with
      sound := hrest.sound.of_perm rfl (by
        rw [Manifest.slots, Manifest.slots, h.free, show backup.pendingFree = [] from hrest.free])
      free := h.free
      pending := h.pending }

lemma Settled.trim (h : Settled crc s base baseNext ds) (oldNext : ℕ) :
    Settled crc { s with files := { s.files with
      data := s.files.data.writeAll (trimCells s.manifest oldNext)
      integrity := s.files.integrity.writeAll (trimRecords s.manifest oldNext) } }
      base baseNext ds := by
  refine h.of_files ⟨rfl, rfl, rfl, rfl, rfl⟩ fun guid slot hslot => ?_
  have hlt := h.sound.entry_lt hslot
  have hused := h.sound.not_reusable hslot
  refine ⟨fun page => ?_, ?_⟩
  · have hnot : (slot, page) ∉ (trimCells s.manifest oldNext).map Prod.fst := by
      intro hmem
      simp only [trimCells, map_append, map_flatMap, List.map_map, mem_append,
        mem_flatMap, List.mem_map, Function.comp_apply, Prod.mk.injEq] at hmem
      rcases hmem with ⟨a, ha, p, -, heq, -⟩ | ⟨a, ha, p, -, heq, -⟩
      · have := (mem_range'_1.mp ha).1
        omega
      · exact hused (heq ▸ (s.manifest.reusable.ordered_spec.2 a).mp ha)
    obtain ⟨hnow, holder⟩ := CrashFile.writeAll_of_notMem (f := s.files.data) hnot
    exact ⟨hnow, fun hclean => holder.trans hclean⟩
  · have hnot : slot ∉ (trimRecords s.manifest oldNext).map Prod.fst := by
      intro hmem
      simp only [trimRecords, List.map_map, List.mem_map, Function.comp_apply] at hmem
      obtain ⟨a, ha, heq⟩ := hmem
      have := (mem_range'_1.mp ha).1
      omega
    obtain ⟨hnow, holder⟩ := CrashFile.writeAll_of_notMem (f := s.files.integrity) hnot
    exact ⟨hnow, fun hclean => holder.trans hclean⟩

/-! ## The steps -/

variable {v : VacuumStore}

lemma advanceVacuum_inv {point : VacuumPoint} (hi : PointInv crc s point)
    (h : advanceVacuum crc s point = some v) : VacuumInv crc v := by
  cases point with
  | flush =>
    obtain ⟨hinv, hmarked, hflush⟩ := hi
    rcases hflush with ⟨p, hphase⟩ | ⟨hidle, hclean⟩
    · simp only [advanceVacuum, hphase, map_eq_some_iff] at h
      obtain ⟨s', hstep, rfl⟩ := h
      have hadvance : advanceFlush crc s p = some s' := by
        simpa only [fileStep, hphase] using hstep
      have hwhole : WholeFrames crc s .advance := trivial
      exact ⟨fileInv_step hinv hwhole hstep, advanceFlush_marked hphase hmarked hadvance⟩
    · simp only [advanceVacuum, hidle, Option.some.injEq] at h
      subst h
      have hfree : s.manifest.pendingFree = [] := by
        simp only [FreeMarked, hidle] at hmarked
        exact hmarked hclean
      have hrest := Settled.of_fileInv hinv hidle hclean hfree
      have hplan := s.manifest.plan_relocationPlan
      by_cases hnil : s.manifest.relocationPlan = []
      · simp only [hnil, if_true]
        rw [hnil] at hplan
        exact ⟨⟨hinv.data, hinv.integrity⟩, hrest, hplan, by simp [Copied], by simp⟩
      · simp only [hnil, if_false]
        exact ⟨hrest, hplan⟩
  | copy plan =>
    obtain ⟨⟨base, baseNext, ds, hrest⟩, hplan⟩ := hi
    obtain ⟨f, hcopy, hcopied, hrest'⟩ := hrest.copyMoves hplan
    simp only [advanceVacuum, hcopy, map_some, Option.some.injEq] at h
    subst h
    exact ⟨⟨base, baseNext, ds, hrest'⟩, hplan, hcopied⟩
  | syncCopy plan =>
    obtain ⟨⟨base, baseNext, ds, hrest⟩, hplan, hcopied⟩ := hi
    cases h
    exact ⟨flagged_syncAll s, ⟨base, baseNext, ds, hrest.syncAll⟩, hplan,
      hcopied.of_same (sameSlot_syncAll s.files), fun item _ => synced_syncAll s.files item.toSlot⟩
  | relocate plan =>
    obtain ⟨hflags, ⟨base, baseNext, ds, hrest⟩, hplan, hcopied, hsynced⟩ := hi
    simp only [advanceVacuum] at h
    split at h
    · cases h
    · rename_i m hm
      have hmoved := hrest.relocate hplan hcopied hsynced hm
      by_cases hchanged : m.nextSlot ≠ s.manifest.nextSlot ∨ plan ≠ []
      · rw [if_pos hchanged] at h
        cases h
        exact ⟨{ hflags with }, base, baseNext, ds, hmoved⟩
      · rw [if_neg hchanged] at h
        cases h
        rw [not_or, not_not, not_not] at hchanged
        rw [hchanged.2] at hmoved
        exact ⟨base, baseNext, ds, hmoved.settled⟩
  | rename plan backup =>
    obtain ⟨hflags, base, baseNext, ds, hmoved⟩ := hi
    obtain ⟨hcount, rfl⟩ := guard_eq_some.mp h
    refine ⟨{ hflags with }, rfl, hcount, base, baseNext, ds, ?_⟩
    have hrenamed : s.files.renamed = none := hmoved.rest.renamed
    have heq : { s.files with renamed := none } = s.files := by rw [← hrenamed]
    simp only [heq]
    exact hmoved
  | syncDir plan backup =>
    obtain ⟨hflags, hrenamed, hcount, base, baseNext, ds, hmoved⟩ := hi
    simp only [advanceVacuum, hrenamed, getD_some, Option.some.injEq] at h
    subst h
    exact ⟨{ hflags with }, ds, hmoved.publish hcount⟩
  | truncate plan oldNext =>
    obtain ⟨hflags, ds, hpub⟩ := hi
    cases h
    exact ⟨{ hflags with }, ds,
      hpub.of_files (by rfl) (by rfl) (by rfl) (by rfl) (by rfl) (by rfl)⟩
  | syncTruncate plan oldNext =>
    obtain ⟨hflags, ds, hpub⟩ := hi
    cases h
    have hcut := hpub.cutLog
    exact ⟨_, _, _, { hcut with
      clean := rfl
      sound := hcut.sound.of_perm rfl (List.Perm.refl _)
      pending := rfl }⟩
  | trim oldNext =>
    obtain ⟨base, baseNext, ds, hrest⟩ := hi
    cases h
    exact ⟨base, baseNext, ds, hrest.trim oldNext⟩
  | syncTrim =>
    obtain ⟨base, baseNext, ds, hrest⟩ := hi
    cases h
    exact hrest.ready_syncAll

/-- What a crash leaves once the flush of a vacuum is through. -/
structure Keeps (crc : List Byte → UInt32) (s : FileStore) (c : Survival) : Prop where
  map : ∃ map, Survives crc s c map ∧ Shows crc s.files map s.history.images
  changes : s.history.changes = []

lemma Settled.keeps (h : Settled crc s base baseNext ds) (c : Survival) : Keeps crc s c :=
  ⟨⟨_, h.survives c, h.shows⟩, h.changes⟩

lemma Published.keeps (h : Published crc s plan ds) (c : Survival) : Keeps crc s c :=
  ⟨h.survives c, h.changes⟩

lemma Keeps.of_manifest {m : Manifest} {c : Survival} (h : Keeps crc { s with manifest := m } c) :
    Keeps crc s c := by
  obtain ⟨⟨map, hmap, hshows⟩, hchanges⟩ := h
  exact ⟨⟨map, { hmap with }, hshows⟩, hchanges⟩

/-- A crash may come at any point of a vacuum: every blob is served as before. -/
lemma PointInv.keeps {point : VacuumPoint} (hi : PointInv crc s point) (hpoint : point ≠ .flush) :
    (s.phase = .idle ∧ s.manifest.Sound []) ∧ ∀ c, Keeps crc s c := by
  cases point with
  | flush => exact absurd rfl hpoint
  | copy | syncCopy =>
    obtain ⟨⟨_, _, _, hrest⟩, -⟩ := hi
    exact ⟨⟨hrest.idle, hrest.sound⟩, hrest.keeps⟩
  | relocate plan =>
    obtain ⟨-, ⟨_, _, _, hrest⟩, -⟩ := hi
    exact ⟨⟨hrest.idle, hrest.sound⟩, hrest.keeps⟩
  | rename plan backup =>
    obtain ⟨-, _, _, _, hmoved⟩ := hi
    exact ⟨⟨hmoved.rest.idle, hmoved.sound⟩, fun c => (hmoved.rest.keeps c).of_manifest⟩
  | syncDir plan backup =>
    obtain ⟨-, hrenamed, hcount, _, _, _, hmoved⟩ := hi
    refine ⟨⟨hmoved.rest.idle, hmoved.sound⟩, fun c => ⟨?_, hmoved.rest.changes⟩⟩
    -- the rename has happened or not
    by_cases hnew : c.renamed = true
    · obtain ⟨map, hmap, hshows⟩ := (hmoved.publish hcount).survives c
      refine ⟨map, ⟨?_, hmap.one, fun guid slot hslot => ?_⟩, hshows.of_same fun _ slot _ =>
        sameSlot_of_eq (by rfl) (by rfl) slot⟩
      · have hrec := hmap.recovers
        simpa only [Recovers, Files.crash, hnew, if_true, hrenamed, getD_some,
          getD_none] using hrec
      · obtain ⟨hsync, image, hstored⟩ := hmap.whole guid slot hslot
        exact ⟨⟨hsync.pages, hsync.record⟩, image, hstored.pages, hstored.record⟩
    · have hmap := hmoved.rest.survives c
      have hshows : Shows crc s.files backup.entries.lookup s.history.images :=
        hmoved.rest.shows.of_same fun _ slot _ => sameSlot_of_eq (by rfl) (by rfl) slot
      refine ⟨_, ⟨?_, hmap.one, fun _ _ hslot => hshows.whole hslot⟩, hshows⟩
      have hrec := hmap.recovers
      simpa only [Recovers, Files.crash, hnew, Bool.false_eq_true, if_false] using hrec
  | truncate | syncTruncate =>
    obtain ⟨-, _, hpub⟩ := hi
    exact ⟨⟨hpub.idle, hpub.sound⟩, hpub.keeps⟩
  | trim | syncTrim =>
    obtain ⟨_, _, _, hrest⟩ := hi
    exact ⟨⟨hrest.idle, hrest.sound⟩, hrest.keeps⟩

/-- The vacuum has moved blobs, and its snapshot may be in place beside the old log. -/
def VacuumStore.moving (v : VacuumStore) : Bool :=
  match v.vacuum with
  | some (.syncDir plan _) | some (.truncate plan _) | some (.syncTruncate plan _) => plan ≠ []
  | _ => false

/-- What must not fail: an append in the middle of a frame, and a vacuum that has moved blobs
between its new snapshot and the cut of the log. -/
def SafeCall (crc : List Byte → UInt32) (v : VacuumStore) : VacuumCall → Prop
  | .base call | .failFlush call => WholeFrames crc v.store call
  | .failSyncDir landed => v.moving = true → landed = false
  | .failTruncate gone => v.moving = true → gone = true
  | _ => True

instance (v : VacuumStore) (call : VacuumCall) : Decidable (SafeCall crc v call) := by
  cases call <;> unfold SafeCall <;> infer_instance

lemma VacuumInv.survives (hi : VacuumInv crc v) (c : Survival) :
    ∃ map, Survives crc v.store c map := by
  obtain ⟨s, vacuum⟩ := v
  have hflush : FileInv crc s → ∃ map, Survives crc s c map := fun hinv =>
    have ⟨map, _, hmap, _⟩ := hinv.survives c
    ⟨map, hmap⟩
  cases vacuum with
  | none => exact hflush hi.1
  | some point =>
    by_cases hpoint : point = .flush
    · subst hpoint
      exact hflush hi.1
    · obtain ⟨map, hmap, -⟩ := ((PointInv.keeps hi hpoint).2 c).map
      exact ⟨map, hmap⟩

lemma Flagged.restoreBackup (h : Flagged s) : Flagged (restoreBackup s plan backup) := by
  unfold Store.restoreBackup
  split_ifs
  · exact h
  · exact { h with }

lemma failSyncDir_inv (hi : PointInv crc s (.syncDir plan backup)) {landed : Bool}
    (hsafe : plan ≠ [] → landed = false) :
    VacuumInv crc ⟨restoreBackup { s with files := { s.files with
      snapshot := if landed then s.files.renamed.getD s.files.snapshot else s.files.snapshot
      renamed := none } } plan backup, none⟩ := by
  obtain ⟨hflags, hrenamed, hcount, base, baseNext, ds, hmoved⟩ := hi
  cases landed with
  | false => exact hmoved.restore.ready (Flagged.restoreBackup { hflags with })
  | true =>
    obtain rfl : plan = [] := by
      by_contra hne
      exact absurd (hsafe hne) nofun
    have hpub := hmoved.publish hcount
    have hkept := hpub.keepLog rfl
    have htruncated : s.files.truncated = false := hmoved.rest.truncated
    simp only [restoreBackup, if_true, hrenamed, getD_some]
    refine Settled.ready (?_ : Settled crc _ s.manifest.entries s.manifest.nextSlot ds)
      { hflags with }
    rw [htruncated]
    exact hkept

/-- Every step keeps the invariant. -/
theorem vacuumInv_step {v' : VacuumStore} {call : VacuumCall} (hi : VacuumInv crc v)
    (hsafe : SafeCall crc v call) (h : vacuumStep crc v call = some v') : VacuumInv crc v' := by
  obtain ⟨s, vacuum⟩ := v
  cases call <;> simp only [vacuumStep] at h
  case base call =>
    split at h <;> try contradiction
    obtain ⟨s', hstep, rfl⟩ := map_eq_some_iff.mp h
    exact ⟨fileInv_step hi.1 hsafe hstep, freeMarked_step hi.2 hstep⟩
  case vacuum =>
    split at h <;> try contradiction
    next hphase =>
      cases h
      have hflush : fileStep crc s .flush = some { s with phase := .flushing .syncData } := by
        simp only [fileStep, hphase]
      have hwhole : WholeFrames crc s .flush := trivial
      exact ⟨fileInv_step hi.1 hwhole hflush, freeMarked_step hi.2 hflush, .inl ⟨_, rfl⟩⟩
  case advance =>
    split at h <;> try contradiction
    exact advanceVacuum_inv hi h
  case failFlush call =>
    have hwhole : WholeFrames crc s call := hsafe
    split at h <;> try contradiction
    all_goals
      obtain ⟨s', hstep, rfl⟩ := map_eq_some_iff.mp h
      exact ⟨fileInv_step hi.1 hwhole hstep, freeMarked_step hi.2.1 hstep⟩
  case failCopy done =>
    split at h <;> try contradiction
    · obtain ⟨⟨_, _, _, hrest⟩, hplan⟩ := hi
      obtain ⟨f, hcopy, -, hrest'⟩ := hrest.copyMoves (hplan.take done)
      simp only [hcopy, map_some, Option.some.injEq] at h
      subst h
      exact hrest'.ready_syncAll
    · obtain ⟨⟨_, _, _, hrest⟩, -⟩ := hi
      cases h
      exact hrest.ready_syncAll
  case failRename =>
    split at h <;> try contradiction
    obtain ⟨hflags, _, _, _, hmoved⟩ := hi
    cases h
    exact hmoved.restore.ready hflags.restoreBackup
  case failSyncDir landed =>
    split at h <;> try contradiction
    cases h
    exact failSyncDir_inv hi (fun hne => hsafe (by simp [VacuumStore.moving, hne]))
  case failTruncate gone =>
    have hend : ∀ {plan ds}, Flagged s → Published crc s plan ds → (plan ≠ [] → gone = true) →
        VacuumInv crc ⟨if gone then cutLog s
          else { s with files := { s.files with truncated := false } }, none⟩ := by
      intro plan ds hflags hpub hgone
      cases gone with
      | true => exact hpub.cutLog.ready { hflags with }
      | false =>
        have hnil : plan = [] := by
          by_contra hne
          exact absurd (hgone hne) (by simp)
        exact (hpub.keepLog hnil).ready { hflags with }
    split at h <;> try contradiction
    all_goals
      obtain ⟨hflags, ds, hpub⟩ := hi
      cases h
      exact hend hflags hpub (fun hne => hsafe (by simp [VacuumStore.moving, hne]))
  case failTrim =>
    split at h <;> try contradiction
    all_goals
      obtain ⟨_, _, _, hrest⟩ := hi
      cases h
      exact hrest.ready_syncAll
  case reopen c =>
    obtain ⟨map, hmap⟩ := hi.survives c
    obtain ⟨t, hopen, hinv, -⟩ := hmap.openStore
    simp only [hopen, Except.toOption, map_some, Option.some.injEq] at h
    subst h
    obtain ⟨hidle, hfree⟩ := openStore_free hopen
    refine ⟨hinv, ?_⟩
    simp only [FreeMarked, hidle]
    exact fun _ => hfree

lemma VacuumInv.sound (hi : VacuumInv crc v) :
    v.store.manifest.Sound (reservedSlots v.store.phase) := by
  obtain ⟨s, vacuum⟩ := v
  cases vacuum with
  | none => exact hi.1.ledger.sound
  | some point =>
    by_cases hpoint : point = .flush
    · subst hpoint
      exact hi.1.ledger.sound
    · obtain ⟨⟨hidle, hsound⟩, -⟩ := PointInv.keeps hi hpoint
      rw [hidle]
      exact hsound

lemma FileInv.durable_busy (hi : FileInv crc s) (hidle : s.phase = .idle) (c : Survival) :
    ∃ t, openStore crc (s.files.crash c) = .ok t ∧
      ∀ guid slot, t.manifest.entries.lookup guid = some slot → Busy s.manifest slot := by
  obtain ⟨⟨base, baseNext, ds, hu, happended⟩, -⟩ := hi.phaseInv hidle
  have hl := hi.ledgerAt hidle
  have hmap : Survives crc s c (applyDeltas base.lookup ds) := by
    refine ⟨⟨base, baseNext, ds, [], ?_, ?_, logHead_nil, hu.loadable, rfl⟩,
      hl.oneEach hu.consistent, fun guid slot hslot => ⟨hu.synced guid slot hslot,
        hl.stored (hu.consistent.placed guid slot hslot)⟩⟩
    · simp only [Files.crash, hu.renamed, getD_none, ite_self, hu.snapshot]
    · simp [Files.crash, hu.truncated, happended, hu.log]
  obtain ⟨t, hopen, -, hlookup, -⟩ := hmap.openStore
  exact ⟨t, hopen, fun guid slot hslot =>
    hu.busy hl ((congrFun hlookup guid).symm.trans hslot)⟩

lemma Manifest.Sound.not_busy_prepared (h : m.Sound []) {writes : List (Guid × Image)}
    {w : PreparedBlobWrite} (hw : w ∈ (prepareBlobWrites m writes).1) : ¬ Busy m w.slot := by
  obtain ⟨hentries, hfree, -⟩ := Manifest.reserveWriteEntries_frame writes m
  have hsound := @Manifest.reserveWriteEntries_sound m [] _ writes h
  rw [append_nil] at hsound
  have hmem : w.slot ∈ (Manifest.reserveWriteEntries writes m).1.map Prod.snd := by
    obtain ⟨r, hr, rfl⟩ := List.mem_map.mp hw
    exact List.mem_map.mpr ⟨r, hr, rfl⟩
  intro hbusy
  refine (nodup_append.mp hsound.nodup).2.2 w.slot hmem w.slot ?_ rfl
  rw [Manifest.slots, hentries, hfree, append_assoc, mem_append, mem_append]
  rcases hbusy with hentry | hpending
  · exact .inl hentry
  · exact .inr (.inl hpending)

/-- Slot ownership: along every run in which no append fails in the middle of a frame and no
vacuum that has moved blobs fails between its snapshot and the cut of the log, the reserved, the
live, the waiting and the reusable slots are different and below the high water, and no two
blobs have one slot.  Whatever a crash before a write would leave can be opened, and the slots
that the write is given are not the slots of a blob there. -/
theorem slot_ownership {calls : List VacuumCall} {v : VacuumStore}
    (hrun : Path (vacuumStep crc) (SafeCall crc) .created calls v) :
    (reservedSlots v.store.phase ++ (entrySlots v.store.manifest.entries ++
        v.store.manifest.pendingFree ++ v.store.manifest.reusable.slots)).Nodup ∧
      (∀ slot ∈ reservedSlots v.store.phase ++ (entrySlots v.store.manifest.entries ++
        v.store.manifest.pendingFree ++ v.store.manifest.reusable.slots),
        slot < v.store.manifest.nextSlot) ∧
      OneEach v.store.manifest.entries.lookup ∧
      ∀ writes, (vacuumStep crc v (.base (.write writes))).isSome → ∀ c, ∃ t,
        openStore crc (v.store.files.crash c) = .ok t ∧
        ∀ w ∈ (prepareBlobWrites v.store.manifest writes).1, ∀ guid,
          t.manifest.entries.lookup guid ≠ some w.slot := by
  have hi : VacuumInv crc v := hrun.invariant (fun _ _ _ hi hsafe h => vacuumInv_step hi hsafe h)
    ⟨inv_created crc, fun _ => rfl⟩
  have hsound := hi.sound
  refine ⟨hsound.nodup, hsound.below, hsound.oneEach, fun writes hwrite c => ?_⟩
  obtain ⟨s, vacuum⟩ := v
  cases vacuum with
  | some point => exact absurd hwrite nofun
  | none =>
    have hidle : s.phase = .idle := by
      cases hphase : s.phase with
      | idle => rfl
      | writing point prepared | flushing point => simp [vacuumStep, fileStep, hphase] at hwrite
    obtain ⟨t, hopen, hbusy⟩ := hi.1.durable_busy hidle c
    refine ⟨t, hopen, fun w hw guid hslot => ?_⟩
    simp only [hidle] at hsound
    exact hsound.not_busy_prepared hw (hbusy guid w.slot hslot)

/-! ## Relocation -/

/-- The copies and the moves of the plan leave no gap below the blobs, and every blob is read as
before. -/
def Relocates (crc : List Byte → UInt32) (f : Files) (m : Manifest) : Prop :=
  ∃ f' m', copyMoves crc f m.relocationPlan = some f' ∧
    (if m.relocationPlan = [] then some m.trimTrailingFreeSlots
      else m.applyRelocationPlan m.relocationPlan) = some m' ∧
    entrySlots m'.entries ~ List.range m'.entries.entries.length ∧
    ∀ guid, (m'.entries.lookup guid).isSome = (m.entries.lookup guid).isSome ∧
      readBlob crc f' m' guid = readBlob crc f m guid

lemma Manifest.Sound.relocates (h : m.Sound []) (hfree : m.pendingFree = [])
    (hfull : ∀ slot < m.nextSlot, slot ∈ m.slots) (hstored : ∀ guid slot,
      m.entries.lookup guid = some slot → ∃ image, Stored crc f slot guid image) :
    Relocates crc f m := by
  have hp := m.plan_relocationPlan
  have hapart : ∀ guid slot, m.entries.lookup guid = some slot →
      slot ∉ m.relocationPlan.map SlotMove.toSlot := by
    intro guid slot hslot hmem
    obtain ⟨item, hitem, rfl⟩ := List.mem_map.mp hmem
    exact h.not_reusable hslot (hp.free item hitem)
  obtain ⟨f', hcopy, hcopied, -, hsame⟩ := copyMoves_spec
    (fun item hitem => hstored item.guid item.fromSlot (hp.sources item hitem)) hp.targets
    (fun item hitem => hapart item.guid item.fromSlot (hp.sources item hitem))
  have hmoves : ∃ m', (if m.relocationPlan = [] then some m.trimTrailingFreeSlots
      else m.applyRelocationPlan m.relocationPlan) = some m' ∧
      m'.entries.lookup = relocated m.relocationPlan m.entries.lookup := by
    by_cases hnil : m.relocationPlan = []
    · rw [if_pos hnil, hnil]
      exact ⟨_, rfl, rfl⟩
    · rw [if_neg hnil]
      obtain ⟨m', happly, -, -, hentries, -⟩ := applyRelocationPlan_spec h hfree hp hnil
      exact ⟨m', happly, hentries⟩
  obtain ⟨m', hm', hentries⟩ := hmoves
  have hrange := relocationPlan_closed h hfree hfull hentries
  rw [show (entrySlots m'.entries).length = m'.entries.entries.length from length_map _] at hrange
  refine ⟨f', m', hcopy, hm', hrange, fun guid => ?_⟩
  have hguid : m'.entries.lookup guid = relocated m.relocationPlan m.entries.lookup guid :=
    congrFun hentries guid
  rw [hguid]
  refine ⟨hp.isSome_relocated guid, ?_⟩
  cases hslot : m.entries.lookup guid with
  | none =>
    have hnone : m'.entries.lookup guid = none := by
      rw [hguid, ← not_isSome_iff_eq_none, hp.isSome_relocated, hslot]
      simp
    simp only [readBlob, hslot, hnone]
  | some slot =>
    obtain ⟨image, himage⟩ := hstored guid slot hslot
    obtain ⟨slot', hslot', hstored', -⟩ :=
      hcopied.stored hp hslot (himage.of_same (hsame slot (hapart guid slot hslot)))
    rw [readBlob_of_stored hslot himage, readBlob_of_stored (hguid.trans hslot') hstored']

/-- Vacuum: a plan moves blobs to free slots below their own, each to another.  Where no slot is
pending or reserved, the copies and the moves leave the blobs in the first slots, and every blob
is read as before.  A crash at any point of a vacuum leaves a store that opens and serves the
flushed blobs: while the vacuum flushes, with a part of the changes it flushes, and then with all
of them. -/
theorem vacuum_relocates (crc : List Byte → UInt32) :
    (∀ m : Manifest, (m.relocationPlan.map SlotMove.toSlot).Nodup ∧
      ∀ item ∈ m.relocationPlan, m.entries.lookup item.guid = some item.fromSlot ∧
        item.toSlot ∈ m.reusable.slots ∧ item.toSlot < item.fromSlot) ∧
    (∀ (m : Manifest) (f : Files), m.Sound [] → m.pendingFree = [] →
      (∀ slot < m.nextSlot, slot ∈ m.slots) →
      (∀ guid slot, m.entries.lookup guid = some slot → ∃ image, Stored crc f slot guid image) →
      Relocates crc f m) ∧
    ∀ (calls : List VacuumCall) (v : VacuumStore) (point : VacuumPoint) (c : Survival),
      Path (vacuumStep crc) (SafeCall crc) .created calls v → v.vacuum = some point →
      v.store.history.failed = false →
      ∃ t n, openStore crc (v.store.files.crash c) = .ok t ∧
        (v.store.appending = false → n = 0) ∧
        (point ≠ .flush → v.store.history.changes = []) ∧
        Serves crc t (applyChanges v.store.history.images (v.store.history.changes.take n)) := by
  refine ⟨fun m => ?_, fun m f h hfree hfull hstored => h.relocates hfree hfull hstored,
    fun calls v point c hrun hpoint hok => ?_⟩
  · have hp := m.plan_relocationPlan
    exact ⟨hp.targets, fun item hitem => ⟨hp.sources item hitem, hp.free item hitem,
      planMoves_lt item hitem⟩⟩
  · have hi : VacuumInv crc v := hrun.invariant (fun _ _ _ hi hsafe h => vacuumInv_step hi hsafe h)
      ⟨inv_created crc, fun _ => rfl⟩
    obtain ⟨s, vacuum⟩ := v
    obtain rfl : vacuum = some point := hpoint
    by_cases hflush : point = .flush
    · subst hflush
      obtain ⟨t, n, hopen, hzero, hserves⟩ := FileInv.serves hi.1 hok c
      exact ⟨t, n, hopen, hzero, fun h => absurd rfl h, hserves⟩
    · obtain ⟨⟨map, hmap, hshows⟩, hchanges⟩ := (PointInv.keeps hi hflush).2 c
      obtain ⟨t, hopen, hserves⟩ := hmap.serves hshows
      refine ⟨t, 0, hopen, fun _ => rfl, fun _ => hchanges, ?_⟩
      rw [take_zero]
      exact hserves

/-! ## A vacuum that moves a blob -/

/-- Another blob's name. -/
def guidB : Guid := ⟨List.replicate 16 8, List.length_replicate⟩

/-- Two blobs are written and flushed, and the first is deleted. -/
def holeBelow : List FileCall :=
  [.write [(guidA, fun _ => zeroPage)], .advance, .advance, .advance,
    .write [(guidB, fun _ => zeroPage)], .advance, .advance, .advance,
    .flush, .advance, .advance, .advance, .advance, .delete guidA]

/-- A vacuum is about to cut the log then: it has moved the second blob from slot 1 to slot 0. -/
def moveToCut : List VacuumCall :=
  holeBelow.map .base ++ .vacuum :: List.replicate 10 .advance

theorem slot_ownership_moved : ∃ v : VacuumStore, v.store.manifest.entries.lookup guidB = some 0 ∧
    (reservedSlots v.store.phase ++ (entrySlots v.store.manifest.entries ++
        v.store.manifest.pendingFree ++ v.store.manifest.reusable.slots)).Nodup ∧
      (∀ slot ∈ reservedSlots v.store.phase ++ (entrySlots v.store.manifest.entries ++
        v.store.manifest.pendingFree ++ v.store.manifest.reusable.slots),
        slot < v.store.manifest.nextSlot) ∧
      OneEach v.store.manifest.entries.lookup ∧
      ∀ writes, (vacuumStep (fun _ => 0) v (.base (.write writes))).isSome → ∀ c, ∃ t,
        openStore (fun _ => 0) (v.store.files.crash c) = .ok t ∧
        ∀ w ∈ (prepareBlobWrites v.store.manifest writes).1, ∀ guid,
          t.manifest.entries.lookup guid ≠ some w.slot := by
  obtain ⟨v, -, hrun, hmoved⟩ := path_of_guardedTo
    (show guardedTo (vacuumStep (fun _ => 0)) (SafeCall (fun _ => 0))
      (fun v => v.store.manifest.entries.lookup guidB = some 0) .created
      (moveToCut ++ [.failTruncate true]) = true by decide +kernel)
  exact ⟨v, hmoved, slot_ownership hrun⟩

/-- When the deletion is flushed, the plan moves the second blob down, and every blob is read as
before when the plan is made.  A crash in the vacuum, before the log is cut, finds the new snapshot
beside the old log: the second blob is read, and the first is gone. -/
theorem vacuum_relocates_moved :
    (∃ s : FileStore, exec (fileStep (fun _ => 0)) .created
        (holeBelow ++ .flush :: List.replicate 4 .advance) = some s ∧
      s.manifest.relocationPlan = [⟨guidB, 1, 0⟩] ∧ Relocates (fun _ => 0) s.files s.manifest) ∧
    ∃ v : VacuumStore, exec (vacuumStep (fun _ => 0)) .created moveToCut = some v ∧
      v.store.manifest.entries.lookup guidB = some 0 ∧
      ∀ c, ∃ t, openStore (fun _ => 0) (v.store.files.crash c) = .ok t ∧
        readBlob (fun _ => 0) t.files t.manifest guidB = .ok (fun _ => zeroPage) ∧
        t.manifest.entries.lookup guidA = none := by
  constructor
  · obtain ⟨s, hexec, hrun, hfree, hfull, hplan, hpending⟩ := path_of_guardedTo
      (show guardedTo (fileStep (fun _ => 0)) (WholeFrames (fun _ => 0)) (fun s =>
        s.manifest.pendingFree = [] ∧ (∀ slot < s.manifest.nextSlot, slot ∈ s.manifest.slots) ∧
          s.manifest.relocationPlan = [⟨guidB, 1, 0⟩] ∧ s.manifest.pendingLog = []) .created
        (holeBelow ++ .flush :: List.replicate 4 .advance) = true by decide +kernel)
    have hidle : (exec (fileStep (fun _ => 0)) .created
        (holeBelow ++ .flush :: List.replicate 4 .advance)).map FileStore.phase = some .idle := by
      rfl
    rw [hexec] at hidle
    have hl := (fileInv_run hrun).ledgerAt (Option.some.inj hidle)
    have hentries := hl.entries
    rw [hpending] at hentries
    exact ⟨s, hexec, hplan,
      (vacuum_relocates (fun _ => 0)).2.1 s.manifest s.files hl.sound hfree hfull
      fun guid slot hslot => hl.stored (.inl ((congrFun hentries guid).symm.trans hslot))⟩
  · obtain ⟨v, hexec, hrun, hpoint, hslot, hok⟩ := path_of_guardedTo
      (show guardedTo (vacuumStep (fun _ => 0)) (SafeCall (fun _ => 0)) (fun v =>
        v.vacuum.isSome ∧ v.store.manifest.entries.lookup guidB = some 0 ∧
          v.store.history.failed = false) .created moveToCut = true by decide +kernel)
    obtain ⟨point, hpoint⟩ := isSome_iff_exists.mp hpoint
    have hhistory : (exec (vacuumStep (fun _ => 0)) .created moveToCut).map (fun v =>
        (v.store.history.images guidA, v.store.history.images guidB, v.store.history.changes)) =
        some (none, some (fun _ => zeroPage), []) := by
      set_option maxRecDepth 4000 in
      rfl
    rw [hexec, Option.map_some, Option.some.injEq, Prod.mk.injEq, Prod.mk.injEq] at hhistory
    obtain ⟨hgone, hkept, hchanges⟩ := hhistory
    refine ⟨v, hexec, hslot, fun c => ?_⟩
    obtain ⟨t, n, hopen, -, -, hserves⟩ :=
      (vacuum_relocates (fun _ => 0)).2.2 moveToCut v point c hrun hpoint hok
    rw [hchanges, take_nil] at hserves
    have hA := hserves guidA
    have hB := hserves guidB
    simp only [applyChanges, foldl_nil, hgone, hkept] at hA hB
    exact ⟨t, hopen, hB, hA⟩

/-- The log is not cut.  The old slot of the moved blob is given to the next write, and the store
that is opened then finds the moved blob there. -/
theorem moved_slot_given_out : ∃ (v : VacuumStore) (t : FileStore) (w : PreparedBlobWrite),
    exec (vacuumStep (fun _ => 0)) .created (moveToCut ++ [.failTruncate false]) = some v ∧
      (vacuumStep (fun _ => 0) v (.base (.write [(guidA, fun _ => zeroPage)]))).isSome = true ∧
      openStore (fun _ => 0) (v.store.files.crash nothingLost) = .ok t ∧
      w ∈ (prepareBlobWrites v.store.manifest [(guidA, fun _ => zeroPage)]).1 ∧
      t.manifest.entries.lookup guidB = some w.slot := by
  have hgiven : (exec (vacuumStep (fun _ => 0)) .created
      (moveToCut ++ [.failTruncate false])).any (fun v =>
        (vacuumStep (fun _ => 0) v (.base (.write [(guidA, fun _ => zeroPage)]))).isSome &&
        (openStore (fun _ => 0) (v.store.files.crash nothingLost)).toOption.any (fun t =>
          (prepareBlobWrites v.store.manifest [(guidA, fun _ => zeroPage)]).1.any (fun w =>
            t.manifest.entries.lookup guidB = some w.slot))) = true := by
    decide +kernel
  obtain ⟨v, hexec, hv⟩ := exists_of_exec_any hgiven
  rw [Bool.and_eq_true] at hv
  obtain ⟨t, hopen, hgiven⟩ := openStore_of_any hv.2
  obtain ⟨w, hw, hslot⟩ := List.any_eq_true.mp hgiven
  exact ⟨v, t, w, hexec, hv.1, hopen, hw, of_decide_eq_true hslot⟩

/-- The next write has taken the old slot of the moved blob, and the next vacuum is about to flush.
A crash there leaves a store that opens and does not have the moved blob, which was flushed. -/
theorem crash_in_vacuum_loses_blob : ∃ (v : VacuumStore) (t : FileStore),
    exec (vacuumStep (fun _ => 0)) .created (moveToCut ++ [.failTruncate false,
        .base (.write [(guidA, fun _ => zeroPage)]), .base .advance, .base .advance, .base .advance,
        .vacuum]) = some v ∧
      v.vacuum.isSome = true ∧ v.store.history.failed = false ∧ v.store.appending = false ∧
      (v.store.history.images guidB).isSome = true ∧
      openStore (fun _ => 0) (v.store.files.crash nothingLost) = .ok t ∧
      served (fun _ => 0) t.files t.manifest guidB = none := by
  have hlost : (exec (vacuumStep (fun _ => 0)) .created (moveToCut ++ [.failTruncate false,
      .base (.write [(guidA, fun _ => zeroPage)]), .base .advance, .base .advance, .base .advance,
      .vacuum])).any (fun v => (v.vacuum.isSome = true ∧ v.store.history.failed = false ∧
        v.store.appending = false ∧ (v.store.history.images guidB).isSome = true) &&
        (openStore (fun _ => 0) (v.store.files.crash nothingLost)).toOption.any
          (fun t => (served (fun _ => 0) t.files t.manifest guidB).isNone)) = true := by
    decide +kernel
  obtain ⟨v, hexec, hv⟩ := exists_of_exec_any hlost
  rw [Bool.and_eq_true, decide_eq_true_eq] at hv
  obtain ⟨⟨hpoint, hok, happending, himage⟩, hcrash⟩ := hv
  obtain ⟨t, hopen, hnone⟩ := openStore_of_any hcrash
  exact ⟨v, t, hexec, hpoint, hok, happending, himage, hopen, isNone_iff_eq_none.mp hnone⟩

end Store
end Holt
