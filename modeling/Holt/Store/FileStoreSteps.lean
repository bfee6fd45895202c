import Holt.Store.FileStoreInvariant

/-!
# The steps of the file blob store

Each file operation of a write, a delete and a flush keeps the invariant, and so do the
failures, as long as a failed append leaves whole frames in the log (`WholeFrames`).  Writes
touch reserved slots only, which are not busy, so what is synced stays; a flush moves from
"not in the log" (`Unflushed`) to "in the log" (`Flushed`) when its append is synced, and what
happens to the snapshot and the log after that does not change what they say.
-/

namespace Holt
namespace Store

open List FrameLog

variable {crc : List Byte → UInt32} {s s' : FileStore}

/-! ## What a write changes -/

variable {prepared : List PreparedBlobWrite} {slot : ℕ}

lemma mem_keys_dataCells {page : Fin pageCount} : (slot, page) ∈ (dataCells prepared).map Prod.fst ↔
      slot ∈ prepared.map PreparedBlobWrite.slot := by
  simp only [dataCells, map_flatMap, List.map_map, mem_flatMap, List.mem_map]
  constructor
  · rintro ⟨w, hw, page', -, heq⟩
    exact ⟨w, hw, congrArg Prod.fst heq⟩
  · rintro ⟨w, hw, rfl⟩
    exact ⟨w, hw, page, mem_finRange page, rfl⟩

lemma nodup_keys_dataCells (h : (prepared.map PreparedBlobWrite.slot).Nodup) :
    ((dataCells prepared).map Prod.fst).Nodup := by
  induction prepared with
  | nil => exact nodup_nil
  | cons w prepared ih =>
    rw [map_cons, nodup_cons] at h
    have hcells : (dataCells (w :: prepared)).map Prod.fst =
        (List.finRange pageCount).map (fun page => (w.slot, page)) ++
          (dataCells prepared).map Prod.fst := by
      simp [dataCells, Function.comp_def]
    rw [hcells]
    refine nodup_append.mpr ⟨?_, ih h.2, ?_⟩
    · exact (nodup_finRange pageCount).map (fun a b heq => congrArg Prod.snd heq)
    · rintro cell hcell ⟨slot, page⟩ hcell' rfl
      obtain ⟨page', -, heq⟩ := List.mem_map.mp hcell
      have hslot : w.slot = slot := congrArg Prod.fst heq
      exact h.1 (hslot ▸ mem_keys_dataCells.mp hcell')

lemma sameSlot_pwriteMany (h : slot ∉ prepared.map PreparedBlobWrite.slot) :
    SameSlot s.files (pwriteMany s prepared).files slot := by
  refine ⟨fun page => ?_, ⟨rfl, id⟩⟩
  have hnot : (slot, page) ∉ (dataCells prepared).map Prod.fst :=
    fun hmem => h (mem_keys_dataCells.mp hmem)
  obtain ⟨hnow, holder⟩ := CrashFile.writeAll_of_notMem (f := s.files.data) hnot
  exact ⟨hnow, fun hclean => holder.trans hclean⟩

lemma keys_recordCells (crc : List Byte → UInt32) (prepared : List PreparedBlobWrite) :
    (recordCells crc prepared).map Prod.fst = prepared.map PreparedBlobWrite.slot := by
  simp [recordCells, Function.comp_def]

lemma sameSlot_writeIntegrityRecords (h : slot ∉ prepared.map PreparedBlobWrite.slot) :
    SameSlot s.files (writeIntegrityRecords crc s prepared).files slot := by
  rw [← keys_recordCells crc] at h
  obtain ⟨hnow, holder⟩ := CrashFile.writeAll_of_notMem (f := s.files.integrity) h
  exact ⟨fun page => ⟨rfl, id⟩, ⟨hnow, fun hclean => holder.trans hclean⟩⟩

lemma pages_pwriteMany (h : (prepared.map PreparedBlobWrite.slot).Nodup) {w : PreparedBlobWrite}
    (hw : w ∈ prepared) (page : Fin pageCount) :
    (pwriteMany s prepared).files.data.now (w.slot, page) = some (w.src page) :=
  CrashFile.writeAll_now_of_mem (nodup_keys_dataCells h)
    (mem_flatMap.mpr ⟨w, hw, List.mem_map.mpr ⟨page, mem_finRange page, rfl⟩⟩)

lemma record_writeIntegrityRecords (h : (prepared.map PreparedBlobWrite.slot).Nodup)
    {w : PreparedBlobWrite} (hw : w ∈ prepared) :
    (writeIntegrityRecords crc s prepared).files.integrity.now w.slot =
      some (encodeRecord crc w.guid w.slot w.src) :=
  CrashFile.writeAll_now_of_mem (by rw [keys_recordCells]; exact h) (List.mem_map.mpr ⟨w, hw, rfl⟩)

/-! ## Frames -/

/-- The manifest files are the same. -/
structure SameLog (f f' : Files) : Prop where
  snapshot : f'.snapshot = f.snapshot
  renamed : f'.renamed = f.renamed
  log : f'.log = f.log
  appended : f'.appended = f.appended
  truncated : f'.truncated = f.truncated

lemma SameLog.refl (f : Files) : SameLog f f := ⟨rfl, rfl, rfl, rfl, rfl⟩

variable {base : Entries} {baseNext : ℕ} {ds : List ManifestDelta} {reserved : List ℕ}

lemma Unflushed.busy (hu : Unflushed crc s base baseNext ds)
    (hl : Ledger crc s.files s.manifest s.history reserved) {guid : Guid}
    (hslot : applyDeltas base.lookup ds guid = some slot) : Busy s.manifest slot := by
  rcases hu.consistent.placed guid slot hslot with hold | hset
  · exact hl.flushedBusy guid slot hold
  · exact hl.pendingBusy guid slot hset

/-- A step that leaves the manifest files, the flushed map and the busy slots alone, and only
adds pending changes. -/
lemma Waiting.of_frame (more : List ManifestDelta) (hw : Waiting crc s)
    (hl : Ledger crc s.files s.manifest s.history reserved) (hlog : SameLog s.files s'.files)
    (hsame : ∀ slot, Busy s.manifest slot → SameSlot s.files s'.files slot)
    (hpending : s'.manifest.pendingLog = s.manifest.pendingLog ++ more)
    (hslots : s'.history.slots = s.history.slots) (hfailed : s'.history.failed = s.history.failed) :
    Waiting crc s' := by
  obtain ⟨base, baseNext, ds, hu, happended⟩ := hw
  refine ⟨base, baseNext, ds, ⟨hlog.snapshot.trans hu.snapshot, hlog.log.trans hu.log,
    hlog.renamed.trans hu.renamed, hlog.truncated.trans hu.truncated, hu.loadable, ?_,
    fun h => ?_, fun guid slot hslot => ?_⟩, hlog.appended.trans happended⟩
  · rw [hpending, hslots]
    exact hu.consistent.of_append more
  · rw [hslots]
    exact hu.exact (hfailed ▸ h)
  · exact (hu.synced guid slot hslot).of_same (hsame slot (hu.busy hl hslot))

/-! ## Writes and deletes -/

lemma FileInv.ledgerAt (hi : FileInv crc s) {phase : Phase} (h : s.phase = phase) :
    Ledger crc s.files s.manifest s.history (reservedSlots phase) := h ▸ hi.ledger

lemma FileInv.phaseInv (hi : FileInv crc s) {phase : Phase} (h : s.phase = phase) :
    PhaseInv crc s phase := h ▸ hi.phase

lemma pendingLog_publishBlobWrites (prepared : List PreparedBlobWrite) (m : Manifest) :
    (publishBlobWrites m prepared).pendingLog =
      m.pendingLog ++ prepared.map (fun w => .set w.guid w.slot) := by
  induction prepared generalizing m with
  | nil => exact (append_nil _).symm
  | cons w prepared ih =>
    refine (ih (m.publishWriteEntry w.guid w.slot)).trans ?_
    simp [Manifest.publishWriteEntry]

variable {f : Files} {m : Manifest} {h : History}

lemma Ledger.publishAll (hl : Ledger crc f m h (prepared.map PreparedBlobWrite.slot ++ reserved))
    (hstored : ∀ w ∈ prepared, Stored crc f w.slot w.guid w.src) :
    Ledger crc f (publishBlobWrites m prepared)
      { h with changes := h.changes ++ prepared.map (fun w => .write w.guid w.src) } reserved := by
  induction prepared generalizing m h with
  | nil => simpa [publishBlobWrites] using hl
  | cons w prepared ih =>
    have hfirst := Ledger.publish hl (hstored w mem_cons_self)
    have hrest := ih hfirst (forall_mem_cons.mp hstored).2
    simpa [publishBlobWrites] using hrest

lemma inv_write (hi : FileInv crc s) (hphase : s.phase = .idle) (writes : List (Guid × Image))
    (hcapacity : (prepareBlobWrites s.manifest writes).2.nextSlot ≤ maxSlots) :
    FileInv crc { s with
      manifest := (prepareBlobWrites s.manifest writes).2
      phase := .writing .pwrite (prepareBlobWrites s.manifest writes).1
      history := { s.history with requested := writes } } := by
  obtain ⟨hentries, hfree, hlog, -⟩ := Manifest.reserveWriteEntries_frame writes s.manifest
  obtain ⟨hwaiting, hundirty⟩ := hi.phaseInv hphase
  have hl := hi.ledgerAt hphase
  have hslots : (prepareBlobWrites s.manifest writes).1.map PreparedBlobWrite.slot =
      (Manifest.reserveWriteEntries writes s.manifest).1.map Prod.snd := by
    simp [prepareBlobWrites, Function.comp_def]
  have hsound : (prepareBlobWrites s.manifest writes).2.Sound
      ((prepareBlobWrites s.manifest writes).1.map PreparedBlobWrite.slot) := by
    have hreserved := @Manifest.reserveWriteEntries_sound s.manifest [] _ writes hl.sound
    rwa [append_nil, ← hslots] at hreserved
  refine ⟨(hl.of_manifest hsound hcapacity hentries hfree hlog).request writes, hi.data,
    hi.integrity, ?_, ?_, ?_⟩
  · exact hwaiting.of_frame [] hl (SameLog.refl _) (fun slot _ => sameSlot_of_eq rfl rfl slot)
      (by rw [append_nil]; exact hlog) rfl rfl
  · intro hdirty
    obtain ⟨hnil, hfailed⟩ := hundirty hdirty
    exact ⟨hlog.trans hnil, hfailed⟩
  · rw [Requested, prepareBlobWrites, List.map_map]
    exact Manifest.reserveWriteEntries_writes writes s.manifest

lemma Ledger.same_of_reserved (hl : Ledger crc f m h reserved) {f' : Files}
    (hsame : ∀ slot, slot ∉ reserved → SameSlot f f' slot) (hbusy : Busy m slot) :
    SameSlot f f' slot := hsame slot (fun hmem => hl.not_busy hmem hbusy)

lemma nodup_reserved (hl : Ledger crc f m h reserved) :
    reserved.Nodup := (nodup_append.mp hl.sound.nodup).1

lemma inv_pwrite (hi : FileInv crc s) (hphase : s.phase = .writing .pwrite prepared) :
    FileInv crc (advanceWrite crc s prepared .pwrite) := by
  obtain ⟨hwaiting, hundirty, hrequested⟩ := hi.phaseInv hphase
  have hl := hi.ledgerAt hphase
  have hsame : ∀ slot, Busy s.manifest slot →
      SameSlot s.files (pwriteMany s prepared).files slot :=
    fun slot => hl.same_of_reserved fun _ => sameSlot_pwriteMany
  refine ⟨hl.of_files hsame, fun h => absurd h nofun, hi.integrity,
    ?_, hundirty, hrequested, fun w hw => pages_pwriteMany (nodup_reserved hl) hw⟩
  exact hwaiting.of_frame [] hl ⟨rfl, rfl, rfl, rfl, rfl⟩ hsame (append_nil _).symm rfl rfl

lemma inv_records (hi : FileInv crc s) (hphase : s.phase = .writing .records prepared) :
    FileInv crc (advanceWrite crc s prepared .records) := by
  obtain ⟨hwaiting, hundirty, hrequested, hpages⟩ := hi.phaseInv hphase
  have hl := hi.ledgerAt hphase
  have hsame : ∀ slot, Busy s.manifest slot →
      SameSlot s.files (writeIntegrityRecords crc s prepared).files slot :=
    fun slot => hl.same_of_reserved fun _ => sameSlot_writeIntegrityRecords
  refine ⟨hl.of_files hsame, hi.data,
    fun h => absurd h nofun, ?_, hundirty, hrequested,
    fun w hw => ⟨hpages w hw, record_writeIntegrityRecords (nodup_reserved hl) hw⟩⟩
  exact hwaiting.of_frame [] hl ⟨rfl, rfl, rfl, rfl, rfl⟩ hsame (append_nil _).symm rfl rfl

lemma inv_publish (hi : FileInv crc s) (hphase : s.phase = .writing .publish prepared) :
    FileInv crc ((advanceWrite crc s prepared .publish).record
      (s.history.requested.map (fun w => .write w.1 w.2))) := by
  obtain ⟨hwaiting, -, hrequested, hstored⟩ := hi.phaseInv hphase
  have hl := hi.ledgerAt hphase
  rw [← show _ = _ from hrequested, List.map_map]
  have hl' : Ledger crc s.files s.manifest s.history
      (prepared.map PreparedBlobWrite.slot ++ []) := by
    rw [append_nil]
    exact hl
  refine ⟨hl'.publishAll hstored, hi.data, hi.integrity, ?_,
    fun h => absurd h nofun⟩
  exact hwaiting.of_frame _ hl (SameLog.refl _) (fun slot _ => sameSlot_of_eq rfl rfl slot)
    (pendingLog_publishBlobWrites prepared s.manifest) rfl rfl

lemma releaseReservedSlots_frame (m : Manifest) (slots : List ℕ) :
    (m.releaseReservedSlots slots).entries = m.entries ∧
      (m.releaseReservedSlots slots).pendingFree = m.pendingFree ∧
      (m.releaseReservedSlots slots).pendingLog = m.pendingLog := by
  unfold Manifest.releaseReservedSlots
  split_ifs
  · exact ⟨rfl, rfl, rfl⟩
  · exact ⟨rfl, rfl, rfl⟩

/-- A failed write gives its slots back, whatever it has written into them. -/
lemma inv_release (hi : FileInv crc s) {point : WritePoint}
    (hphase : s.phase = .writing point prepared) (hwaiting : Waiting crc s) (hundirty : Undirty s)
    {t : FileStore} (hdirty : t.manifestDirty = s.manifestDirty) (hhistory : t.history = s.history)
    (hlog : SameLog s.files t.files)
    (hsame : ∀ slot, slot ∉ prepared.map PreparedBlobWrite.slot → SameSlot s.files t.files slot)
    (hdata : t.dataDirty = false → ∀ i, t.files.data.Clean i)
    (hintegrity : t.integrityDirty = false → ∀ slot, t.files.integrity.Clean slot) :
    FileInv crc { t with
      manifest := s.manifest.releaseReservedSlots (prepared.map PreparedBlobWrite.slot)
      phase := .idle } := by
  have hl := hi.ledgerAt hphase
  obtain ⟨hsound, hnext⟩ := Manifest.releaseReservedSlots_sound hl.sound
  have hbusy : ∀ slot, Busy s.manifest slot → SameSlot s.files t.files slot :=
    fun slot => hl.same_of_reserved hsame
  obtain ⟨hentries, hfree, hpending⟩ :=
    releaseReservedSlots_frame s.manifest (prepared.map PreparedBlobWrite.slot)
  refine ⟨?_, hdata, hintegrity, ?_, fun h => ?_⟩
  · rw [hhistory]
    exact (hl.of_files hbusy).of_manifest hsound (hnext.trans hl.capacity) hentries hfree hpending
  · exact hwaiting.of_frame [] hl hlog hbusy (by rw [append_nil]; exact hpending)
      (by rw [hhistory]) (by rw [hhistory])
  · obtain ⟨hnil, hfailed⟩ := hundirty (hdirty ▸ h)
    exact ⟨hpending.trans hnil, hhistory ▸ hfailed⟩

lemma notMem_take {done : ℕ} (h : slot ∉ prepared.map PreparedBlobWrite.slot) :
    slot ∉ (prepared.take done).map PreparedBlobWrite.slot := by
  rw [map_take]
  exact fun hmem => h (mem_of_mem_take hmem)

lemma inv_failWrite (hi : FileInv crc s) {point : WritePoint}
    (hphase : s.phase = .writing point prepared) {done : ℕ}
    (h : failWrite crc s prepared done point = some s') : FileInv crc s' := by
  have hpoint := hi.phaseInv hphase
  cases point with
  | pwrite =>
    obtain ⟨hwaiting, hundirty, -⟩ := hpoint
    rw [failWrite, Option.some.injEq] at h
    subst h
    exact inv_release hi hphase hwaiting hundirty rfl rfl ⟨rfl, rfl, rfl, rfl, rfl⟩
      (fun slot hslot => sameSlot_pwriteMany (notMem_take hslot))
      (fun h => absurd h nofun) hi.integrity
  | records =>
    obtain ⟨hwaiting, hundirty, -⟩ := hpoint
    rw [failWrite, Option.some.injEq] at h
    subst h
    exact inv_release hi hphase hwaiting hundirty rfl rfl ⟨rfl, rfl, rfl, rfl, rfl⟩
      (fun slot hslot => sameSlot_writeIntegrityRecords (notMem_take hslot)) hi.data
      (fun h => absurd h nofun)
  | publish => simp [failWrite] at h

lemma inv_delete (hi : FileInv crc s) (hphase : s.phase = .idle) (guid : Guid) :
    FileInv crc ((deleteBlob s guid).record
      (if (s.history.current guid).isSome then [.delete guid] else [])) := by
  have hl := hi.ledger
  simp only [← hl.mem_entries guid, deleteBlob]
  by_cases hmem : guid ∈ s.manifest.entries
  · rw [if_pos hmem, if_pos hmem]
    obtain ⟨hwaiting, -⟩ := hi.phaseInv hphase
    have hpending : (s.manifest.deleteEntry guid).pendingLog =
        s.manifest.pendingLog ++ [.delete guid] := by
      obtain ⟨slot, hslot⟩ := Option.isSome_iff_exists.mp (AList.lookup_isSome.mpr hmem)
      simp only [Manifest.deleteEntry, hslot]
    refine ⟨hl.delete hmem, hi.data, hi.integrity, ?_⟩
    simp only [PhaseInv, FileStore.record, hphase]
    refine ⟨hwaiting.of_frame _ hl (SameLog.refl _) (fun slot _ => sameSlot_of_eq rfl rfl slot)
      hpending rfl rfl, fun h => absurd h (by simp)⟩
  · rw [if_neg hmem, if_neg hmem, FileStore.record, append_nil]
    exact hi

/-! ## Flush -/

/-- When the pending changes are in the log, `flush_locked` may return. -/
lemma inv_finishFlush (hl : Ledger crc s.files s.manifest s.history []) (hclean : AllClean s.files)
    (hf : Flushed crc s base baseNext ds) (hrenamed : s.files.renamed = none)
    (htruncated : s.files.truncated = false) : FileInv crc (finishFlush s) := by
  refine ⟨hl.finish (fun _ slot _ => hclean.synced slot), fun _ => hclean.data,
    fun _ => hclean.integrity, ⟨base, baseNext, ds, ?_, hf.appended⟩, fun _ => ⟨rfl, rfl⟩⟩
  exact ⟨hf.snapshot, hf.log, hrenamed, htruncated, hf.loadable, .of_flushed hf.exact,
    fun _ => hf.exact, fun _ slot _ => hclean.synced slot⟩

lemma sameSlot_syncData (f : Files) (slot : ℕ) : SameSlot f { f with data := f.data.sync } slot :=
  ⟨fun _ => ⟨rfl, fun _ => rfl⟩, ⟨rfl, id⟩⟩

lemma sameSlot_syncIntegrity (f : Files) (slot : ℕ) :
    SameSlot f { f with integrity := f.integrity.sync } slot :=
  ⟨fun _ => ⟨rfl, id⟩, ⟨rfl, fun _ => rfl⟩⟩

lemma inv_syncData (hi : FileInv crc s) (hphase : s.phase = .flushing .syncData)
    (h : advanceFlush crc s .syncData = some s') : FileInv crc s' := by
  obtain ⟨hwaiting, hundirty⟩ := hi.phaseInv hphase
  have hl := hi.ledgerAt hphase
  rw [advanceFlush, Option.some.injEq] at h
  subst h
  by_cases hdirty : s.dataDirty = true
  · simp only [hdirty, if_true]
    have hsame := fun slot (_ : Busy s.manifest slot) => sameSlot_syncData s.files slot
    refine ⟨hl.of_files hsame, fun _ _ => rfl, hi.integrity, ?_, hundirty, fun _ => rfl⟩
    exact hwaiting.of_frame [] hl ⟨rfl, rfl, rfl, rfl, rfl⟩ hsame (append_nil _).symm rfl rfl
  · have hclean := hi.data (by simpa using hdirty)
    simp only [hdirty]
    refine ⟨hl, fun _ => hclean, hi.integrity, ?_, hundirty, hclean⟩
    exact hwaiting.of_frame [] hl (SameLog.refl _) (fun slot _ => sameSlot_of_eq rfl rfl slot)
      (append_nil _).symm rfl rfl

lemma returnOk_history (hl : Ledger crc s.files s.manifest s.history reserved)
    (hnil : s.manifest.pendingLog = []) (hfailed : s.history.failed = false) :
    (returnOk s).history = s.history := by
  have hchanges : s.history.changes = [] := by
    have hpending := hl.pending
    rw [hnil, forall₂_nil_left_iff] at hpending
    exact hpending
  have hslots : s.manifest.entries.lookup = s.history.slots := by
    rw [hl.entries, hnil]
    rfl
  cases hhistory : s.history with
  | mk images slots changes failed requested =>
    rw [hhistory] at hchanges hslots hfailed
    simp only at hchanges hslots hfailed
    simp only [returnOk, History.current, hhistory, hchanges, hslots, hfailed]
    rfl

lemma inv_syncIntegrity (hi : FileInv crc s) (hphase : s.phase = .flushing .syncIntegrity)
    (h : advanceFlush crc s .syncIntegrity = some s') : FileInv crc s' := by
  obtain ⟨hwaiting, hundirty, hdata⟩ := hi.phaseInv hphase
  have hl := hi.ledgerAt hphase
  -- the files afterwards, whether there was anything to sync or not
  obtain ⟨f, hf, hlog, hsame, hclean⟩ : ∃ f, f = (if s.integrityDirty then
      { s.files with integrity := s.files.integrity.sync } else s.files) ∧ SameLog s.files f ∧
      (∀ slot, SameSlot s.files f slot) ∧ AllClean f := by
    refine ⟨_, rfl, ?_⟩
    by_cases hdirty : s.integrityDirty = true
    · rw [if_pos hdirty]
      exact ⟨⟨rfl, rfl, rfl, rfl, rfl⟩, sameSlot_syncIntegrity s.files, ⟨hdata, fun _ => rfl⟩⟩
    · rw [if_neg hdirty]
      exact ⟨SameLog.refl _, sameSlot_of_eq rfl rfl,
        ⟨hdata, hi.integrity (by simpa using hdirty)⟩⟩
  have hl' := hl.of_files (fun slot _ => hsame slot)
  simp only [advanceFlush, ← hf] at h
  by_cases hmanifest : s.manifestDirty = true
  · rw [if_pos hmanifest, Option.some.injEq] at h
    subst h
    refine ⟨hl', fun _ => hclean.data, fun _ => hclean.integrity, ?_, hclean⟩
    exact hwaiting.of_frame [] hl hlog (fun slot _ => hsame slot) (append_nil _).symm rfl rfl
  · rw [if_neg hmanifest, Option.some.injEq] at h
    subst h
    obtain ⟨hnil, hfailed⟩ := hundirty (by simpa using hmanifest)
    have hhistory := returnOk_history
      (s := { s with files := f, integrityDirty := false }) hl' hnil hfailed
    refine ⟨?_, fun _ => hclean.data, fun _ => hclean.integrity, ?_, fun _ => ⟨hnil, rfl⟩⟩
    · rw [hhistory]
      exact hl'
    · exact hwaiting.of_frame [] hl hlog (fun slot _ => hsame slot) (append_nil _).symm
        (congrArg History.slots hhistory) (congrArg History.failed hhistory)

lemma frames_append (ds es : List ManifestDelta) :
    frames crc (ds ++ es) = frames crc ds ++ frames crc es := flatMap_append

lemma inv_append (hi : FileInv crc s) (hphase : s.phase = .flushing .append)
    (h : advanceFlush crc s .append = some s') : FileInv crc s' := by
  obtain ⟨⟨base, baseNext, ds, hu, happended⟩, hclean⟩ := hi.phaseInv hphase
  have hl := hi.ledgerAt hphase
  rw [advanceFlush] at h
  by_cases hnil : s.manifest.pendingLog = []
  · rw [if_pos hnil, Option.some.injEq] at h
    subst h
    have hall := hu.consistent.applyDeltas_append_pending
    rw [← hl.entries, hnil, append_nil] at hall
    exact inv_finishFlush hl hclean { hu with appended := happended, exact := hall } hu.renamed
      hu.truncated
  · rw [if_neg hnil, Option.some.injEq] at h
    subst h
    have hclean' : AllClean { s.files with appended := frames crc s.manifest.pendingLog } :=
      ⟨hclean.data, hclean.integrity⟩
    exact ⟨hl.of_files (fun slot _ => sameSlot_of_eq (by rfl) (by rfl) slot),
      fun _ => hclean.data, fun _ => hclean.integrity, hclean', base, baseNext, ds,
      { hu with synced := fun _ slot _ => hclean'.synced slot }, rfl⟩

lemma inv_syncLog (hi : FileInv crc s) (hphase : s.phase = .flushing .syncLog)
    (h : advanceFlush crc s .syncLog = some s') : FileInv crc s' := by
  obtain ⟨hclean, base, baseNext, ds, hu, happended⟩ := hi.phaseInv hphase
  have hl := hi.ledgerAt hphase
  have hpart : ∀ d ∈ s.manifest.pendingLog, d ∈ s.manifest.pendingLog := fun _ hd => hd
  have hload := hl.loadable_append hu.loadable hu.consistent hpart
  have hall := hu.consistent.applyDeltas_append_pending
  rw [← hl.entries] at hall
  have hlog : s.files.log ++ s.files.appended = frames crc (ds ++ s.manifest.pendingLog) := by
    rw [hu.log, happended, frames_append]
  have hfiles : Ledger crc (syncAppended s).files s.manifest s.history [] :=
    hl.of_files (fun slot _ => sameSlot_of_eq (by rfl) (by rfl) slot)
  have hl' : Ledger crc (syncAppended s).files (syncAppended s).manifest s.history [] :=
    hfiles.of_manifest ⟨hl.sound.nodup, hl.sound.below⟩ hl.capacity rfl rfl rfl
  have hclean' : AllClean (syncAppended s).files := ⟨hclean.data, hclean.integrity⟩
  have hf : Flushed crc (syncAppended s) base baseNext (ds ++ s.manifest.pendingLog) :=
    ⟨hu.snapshot, hlog, rfl, hload, hall⟩
  rw [advanceFlush] at h
  by_cases hcompact : (syncAppended s).manifest.shouldCompactLog = true
  · rw [if_pos hcompact, Option.some.injEq] at h
    subst h
    exact ⟨hl', fun _ => hclean'.data, fun _ => hclean'.integrity, hclean', base, baseNext,
      ds ++ s.manifest.pendingLog, { hf with },
      hu.renamed, hu.truncated⟩
  · rw [if_neg hcompact, Option.some.injEq] at h
    subst h
    exact inv_finishFlush hl' hclean' hf hu.renamed hu.truncated

lemma inv_rename (hi : FileInv crc s) (hphase : s.phase = .flushing .rename)
    (h : advanceFlush crc s .rename = some s') : FileInv crc s' := by
  obtain ⟨hclean, base, baseNext, ds, hf, -, htruncated⟩ := hi.phaseInv hphase
  have hl := hi.ledgerAt hphase
  rw [advanceFlush] at h
  split_ifs at h with hcount
  rw [Option.some.injEq] at h
  subst h
  exact ⟨hl.of_files (fun slot _ => sameSlot_of_eq (by rfl) (by rfl) slot), fun _ => hclean.data,
    fun _ => hclean.integrity, ⟨hclean.data, hclean.integrity⟩, base, baseNext, ds,
    { hf with }, rfl, htruncated, hcount⟩

/-- The manifest of the moment may be the snapshot beside the old log. -/
lemma Flushed.loadable_entries (hf : Flushed crc s base baseNext ds)
    (hl : Ledger crc s.files s.manifest s.history reserved)
    (hcount : s.manifest.entries.entries.length < 2 ^ 32) :
    Loadable s.manifest.entries s.manifest.nextSlot ds ∧
      applyDeltas s.manifest.entries.lookup ds = s.manifest.entries.lookup := by
  refine ⟨⟨hl.sound.oneEach, fun _ _ hslot => hl.sound.entry_lt hslot, hl.capacity, hcount,
    hf.loadable.slots, hf.loadable.noConflict⟩, ?_⟩
  rw [← hf.exact]
  exact applyDeltas_idem _ _

lemma inv_syncDir (hi : FileInv crc s) (hphase : s.phase = .flushing .syncDir)
    (h : advanceFlush crc s .syncDir = some s') : FileInv crc s' := by
  obtain ⟨hclean, base, baseNext, ds, hf, hrenamed, htruncated, hcount⟩ := hi.phaseInv hphase
  have hl := hi.ledgerAt hphase
  obtain ⟨hload, hexact⟩ := hf.loadable_entries hl hcount
  rw [advanceFlush, Option.some.injEq] at h
  subst h
  refine ⟨hl.of_files (fun slot _ => sameSlot_of_eq (by rfl) (by rfl) slot), fun _ => hclean.data,
    fun _ => hclean.integrity, ⟨hclean.data, hclean.integrity⟩, s.manifest.entries,
    s.manifest.nextSlot, ds, ⟨?_, hf.log, hf.appended, hload, hexact⟩, rfl, htruncated, rfl⟩
  change s.files.renamed.getD s.files.snapshot = _
  rw [hrenamed, Option.getD_some]

lemma inv_truncate (hi : FileInv crc s) (hphase : s.phase = .flushing .truncate)
    (h : advanceFlush crc s .truncate = some s') : FileInv crc s' := by
  obtain ⟨hclean, base, baseNext, ds, hf, hrenamed, -, hbase⟩ := hi.phaseInv hphase
  have hl := hi.ledgerAt hphase
  rw [advanceFlush, Option.some.injEq] at h
  subst h
  exact ⟨hl.of_files (fun slot _ => sameSlot_of_eq (by rfl) (by rfl) slot), fun _ => hclean.data,
    fun _ => hclean.integrity, ⟨hclean.data, hclean.integrity⟩, base, baseNext, ds,
    { hf with }, hrenamed, hbase⟩

lemma Loadable.cut (h : Loadable base baseNext ds) : Loadable base baseNext [] :=
  { h with
    slots := fun _ _ hset => absurd hset not_mem_nil
    noConflict := fun before guid slot after hsplit => by simp at hsplit }

lemma inv_syncTruncate (hi : FileInv crc s) (hphase : s.phase = .flushing .syncTruncate)
    (h : advanceFlush crc s .syncTruncate = some s') : FileInv crc s' := by
  obtain ⟨hclean, base, baseNext, ds, hf, hrenamed, hbase⟩ := hi.phaseInv hphase
  have hl := hi.ledgerAt hphase
  have hfiles : Ledger crc (syncTruncated s).files s.manifest s.history [] :=
    hl.of_files (fun slot _ => sameSlot_of_eq (by rfl) (by rfl) slot)
  have hl' : Ledger crc (syncTruncated s).files (syncTruncated s).manifest s.history [] :=
    hfiles.of_manifest ⟨hl.sound.nodup, hl.sound.below⟩ hl.capacity rfl rfl rfl
  rw [advanceFlush, Option.some.injEq] at h
  subst h
  exact inv_finishFlush hl' ⟨hclean.data, hclean.integrity⟩
    ⟨hf.snapshot, rfl, hf.appended, hf.loadable.cut, hbase⟩ hrenamed rfl

/-! ## Failed flushes -/

/-- A failed append leaves whole frames. -/
def WholeFrames (crc : List Byte → UInt32) (s : FileStore) : FileCall → Prop
  | .failAppend kept => ∃ n ∈ List.range (s.manifest.pendingLog.length + 1),
      (frames crc s.manifest.pendingLog).take kept = frames crc (s.manifest.pendingLog.take n)
  | _ => True

instance (call : FileCall) : Decidable (WholeFrames crc s call) := by
  cases call <;> unfold WholeFrames <;> infer_instance

variable (hi : FileInv crc s) {point : FlushPoint} (hphase : s.phase = .flushing point)
include hi hphase

lemma inv_failAppend (hu : Unflushed crc s base baseNext ds) (hclean : AllClean s.files) {kept : ℕ}
    (hwhole : WholeFrames crc s (.failAppend kept)) : FileInv crc (failAppend crc s kept) := by
  obtain ⟨n, -, htake⟩ := hwhole
  have hl := hi.ledgerAt hphase
  have hpart : ∀ d ∈ s.manifest.pendingLog.take n, d ∈ s.manifest.pendingLog :=
    fun _ hd => mem_of_mem_take hd
  have hclean' : AllClean (failAppend crc s kept).files := ⟨hclean.data, hclean.integrity⟩
  refine ⟨(hl.of_files (fun slot _ => sameSlot_of_eq (by rfl) (by rfl) slot)).fail, fun _ =>
    hclean.data,
    fun _ => hclean.integrity, ⟨base, baseNext, ds ++ s.manifest.pendingLog.take n, ?_, rfl⟩,
    fun h => absurd h nofun⟩
  refine ⟨hu.snapshot, ?_, hu.renamed, hu.truncated,
    hl.loadable_append hu.loadable hu.consistent hpart, hu.consistent.append hpart,
    fun h => absurd h nofun, fun _ slot _ => hclean'.synced slot⟩
  change s.files.log ++ (frames crc s.manifest.pendingLog).take kept = _
  rw [htake, hu.log, frames_append]

/-- A flush may fail after its append, whatever has happened to the snapshot and the log, if they
say what the manifest says. -/
lemma inv_returnErr (hclean : AllClean s.files) {f : Files} (hdata : f.data = s.files.data)
    (hintegrity : f.integrity = s.files.integrity) (hrenamed : f.renamed = none)
    (htruncated : f.truncated = false) (hf : Flushed crc { s with files := f } base baseNext ds) :
    FileInv crc (returnErr { s with files := f }) := by
  have hl := hi.ledgerAt hphase
  have hclean' : AllClean f := ⟨hdata ▸ hclean.data, hintegrity ▸ hclean.integrity⟩
  refine ⟨(hl.of_files (fun slot _ => sameSlot_of_eq hdata hintegrity slot)).fail,
    fun _ => hclean'.data, fun _ => hclean'.integrity, ⟨base, baseNext, ds, ?_, hf.appended⟩,
    fun h => absurd h nofun⟩
  exact ⟨hf.snapshot, hf.log, hrenamed, htruncated, hf.loadable,
    .of_applied (hf.exact.trans hl.entries), fun h => absurd h nofun,
    fun _ slot _ => hclean'.synced slot⟩

lemma inv_failSnapshot (hf : Flushed crc s base baseNext ds) (hclean : AllClean s.files)
    (htruncated : s.files.truncated = false)
    (hrenamed : s.files.renamed = none ∨
      (s.files.renamed = some (encodeSnapshot s.manifest.entries s.manifest.nextSlot) ∧
        s.manifest.entries.entries.length < 2 ^ 32)) (landed : Bool) :
    FileInv crc (failSnapshot s landed) := by
  by_cases hnew : landed = true ∧ s.files.renamed ≠ none
  · obtain ⟨rfl, hsome⟩ := hnew
    obtain ⟨hrenamed, hcount⟩ := hrenamed.resolve_left hsome
    obtain ⟨hload, hexact⟩ := hf.loadable_entries (hi.ledgerAt hphase) hcount
    refine inv_returnErr hi hphase hclean rfl rfl rfl htruncated
      ⟨?_, hf.log, hf.appended, hload, hexact⟩
    simp only [hrenamed, if_true, Option.getD_some]
  · refine inv_returnErr hi hphase hclean rfl rfl rfl htruncated { hf with snapshot := ?_ }
    refine Eq.trans ?_ hf.snapshot
    rw [not_and_or, not_not] at hnew
    rcases hnew with hold | hnone
    · exact if_neg hold
    · simp only [hnone, Option.getD_none, ite_self]

lemma inv_failTruncate (hf : Flushed crc s base baseNext ds) (hclean : AllClean s.files)
    (hrenamed : s.files.renamed = none)
    (hbase : base.lookup = s.manifest.entries.lookup) (gone : Bool) :
    FileInv crc (failTruncate s gone) := by
  cases gone with
  | true =>
    exact inv_returnErr hi hphase hclean rfl rfl hrenamed rfl
      ⟨hf.snapshot, (rfl : _ = frames crc []), hf.appended, hf.loadable.cut, hbase⟩
  | false => exact inv_returnErr hi hphase hclean rfl rfl hrenamed rfl { hf with }

end Store
end Holt
