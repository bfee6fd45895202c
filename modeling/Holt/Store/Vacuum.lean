import Holt.Store.FileStoreSafety
import Holt.Store.Relocation

/-!
# Vacuum

`vacuum` flushes, copies the blobs with the highest slots to reusable ones (`Relocation`), makes
the copies durable, changes the manifest in memory, replaces the snapshot and cuts the log, and
then gives the space of free slots back.  It holds `data_io_lock` all the time, so the store is
the machine of `FileStore` with one more call, again cut into its file operations with a crash
possible between any two.

The moves are not logged: only the new snapshot has them.  Until the log is cut, a store that is
opened reads the new snapshot with the old log, and finds every blob that the log mentions in its
old slot and the others in their new ones.  Both slots hold the blob then.  After a failure in
between they need not: `failSyncDir` restores the manifest in memory although the new snapshot
may be in place, and `failTruncate` goes on with the moved blobs although the old log is in place.

What a failed copy, or a failure while space is given back, leaves in free slots is taken as
written through.
-/

namespace Holt
namespace Store

open List FrameLog LittleEndian Transition

/-- `relocate_verified`. -/
def relocateRecord (crc : List Byte → UInt32) (record : List Byte) (slot : ℕ) : List Byte :=
  let body := record.take 24 ++ bytes 8 slot ++ (record.take recordChecksumOffset).drop 32
  body ++ bytes 4 (crc body).toNat

/-- The pages and the record of a slot are written into another. -/
def copySlot (crc : List Byte → UInt32) (f : Files) (item : SlotMove) (record : List Byte) :
    Files :=
  { f with
    data := f.data.writeAll ((List.finRange pageCount).map
      (fun page => ((item.toSlot, page), f.data.now (item.fromSlot, page))))
    integrity := f.integrity.write item.toSlot (some (relocateRecord crc record item.toSlot)) }

/-- One round of `copy_relocated_slots`. -/
def copyMove (crc : List Byte → UInt32) (f : Files) (item : SlotMove) : Option Files :=
  match f.integrity.now item.fromSlot with
  | none => none
  | some record =>
    match readFrame crc record item.guid item.fromSlot
        (fun page => f.data.now (item.fromSlot, page)) with
    | .error _ => none
    | .ok _ => some (copySlot crc f item record)

/-- The rounds of `copy_relocated_slots`. -/
def copyMoves (crc : List Byte → UInt32) (f : Files) (plan : List SlotMove) : Option Files :=
  plan.foldlM (copyMove crc) f

/-- The next operation of a vacuum. -/
inductive VacuumPoint
  | flush
  | copy (plan : List SlotMove)
  | syncCopy (plan : List SlotMove)
  | relocate (plan : List SlotMove)
  | rename (plan : List SlotMove) (backup : Manifest)
  | syncDir (plan : List SlotMove) (backup : Manifest)
  | truncate (plan : List SlotMove) (oldNext : ℕ)
  | syncTruncate (plan : List SlotMove) (oldNext : ℕ)
  | trim (oldNext : ℕ)
  | syncTrim

structure VacuumStore where
  store : FileStore
  vacuum : Option VacuumPoint

/-- The cells of the slots that the files are cut by, and of the holes punched. -/
def trimCells (m : Manifest) (oldNext : ℕ) : List ((ℕ × Fin pageCount) × Option Page) :=
  (List.range' m.nextSlot (oldNext - m.nextSlot)).flatMap
    (fun slot => (List.finRange pageCount).map (fun page => ((slot, page), none))) ++
  m.reusable.ordered.flatMap
    (fun slot => (List.finRange pageCount).map (fun page => ((slot, page), some zeroPage)))

def trimRecords (m : Manifest) (oldNext : ℕ) : List (ℕ × Option (List Byte)) :=
  (List.range' m.nextSlot (oldNext - m.nextSlot)).map (fun slot => (slot, none))

def Files.syncAll (f : Files) : Files :=
  { f with data := f.data.sync, integrity := f.integrity.sync }

/-- The log is cut: the moves are what is flushed. -/
def cutLog (s : FileStore) : FileStore :=
  { s with
    files := { s.files with log := [], truncated := false }
    history := { s.history with slots := s.manifest.entries.lookup } }

/-- The next operation of a vacuum. -/
def advanceVacuum (crc : List Byte → UInt32) (s : FileStore) : VacuumPoint → Option VacuumStore
  | .flush =>
    match s.phase with
    | .idle =>
      let plan := s.manifest.relocationPlan
      some ⟨s, some (if plan = [] then .relocate [] else .copy plan)⟩
    | _ => (fileStep crc s .advance).map (⟨·, some .flush⟩)
  | .copy plan =>
    (copyMoves crc s.files plan).map (fun f => ⟨{ s with files := f }, some (.syncCopy plan)⟩)
  | .syncCopy plan => some ⟨{ s with files := s.files.syncAll }, some (.relocate plan)⟩
  | .relocate plan =>
    match (if plan = [] then some s.manifest.trimTrailingFreeSlots
        else s.manifest.applyRelocationPlan plan) with
    | none => none
    | some m =>
      if m.nextSlot ≠ s.manifest.nextSlot ∨ plan ≠ [] then
        some ⟨{ s with manifest := m }, some (.rename plan s.manifest)⟩
      else some ⟨{ s with manifest := m }, some (.trim m.nextSlot)⟩
  | .rename plan backup =>
    if s.manifest.entries.entries.length < 2 ^ 32 then
      some ⟨{ s with files := { s.files with
        renamed := some (encodeSnapshot s.manifest.entries s.manifest.nextSlot) } },
        some (.syncDir plan backup)⟩
    else none
  | .syncDir plan backup =>
    some ⟨{ s with files := { s.files with
      snapshot := s.files.renamed.getD s.files.snapshot
      renamed := none } }, some (.truncate plan backup.nextSlot)⟩
  | .truncate plan oldNext =>
    some ⟨{ s with files := { s.files with truncated := true } }, some (.syncTruncate plan oldNext)⟩
  | .syncTruncate _ oldNext =>
    let s' := cutLog s
    some ⟨{ s' with
      manifest := { s.manifest with pendingLog := [], logBytes := 0 }
      manifestDirty := false }, some (.trim oldNext)⟩
  | .trim oldNext =>
    some ⟨{ s with files := { s.files with
      data := s.files.data.writeAll (trimCells s.manifest oldNext)
      integrity := s.files.integrity.writeAll (trimRecords s.manifest oldNext) } }, some .syncTrim⟩
  | .syncTrim => some ⟨{ s with files := s.files.syncAll }, none⟩

inductive VacuumCall
  /-- A call of the store, or an operation of it. -/
  | base (call : FileCall)
  | vacuum
  | advance
  /-- The flush of a vacuum fails. -/
  | failFlush (call : FileCall)
  | failCopy (done : ℕ)
  /-- `persist_snapshot` fails before the rename. -/
  | failRename
  /-- It fails after the rename, which may have happened or not. -/
  | failSyncDir (landed : Bool)
  | failTruncate (gone : Bool)
  /-- Giving space back fails. -/
  | failTrim
  | reopen (c : Survival)

/-- What a vacuum does to the manifest when `persist_snapshot` fails: moves are taken back. -/
def restoreBackup (s : FileStore) (plan : List SlotMove) (backup : Manifest) : FileStore :=
  if plan = [] then s
  else { s with manifest := { s.manifest with
    entries := backup.entries, nextSlot := backup.nextSlot, reusable := backup.reusable } }

def vacuumStep (crc : List Byte → UInt32) (v : VacuumStore) : VacuumCall → Option VacuumStore
  | .base call =>
    match v.vacuum with
    | none => (fileStep crc v.store call).map (⟨·, none⟩)
    | some _ => none
  | .vacuum =>
    match v.vacuum, v.store.phase with
    | none, .idle => some ⟨{ v.store with phase := .flushing .syncData }, some .flush⟩
    | _, _ => none
  | .advance =>
    match v.vacuum with
    | none => none
    | some point => advanceVacuum crc v.store point
  | .failFlush call =>
    match v.vacuum, call with
    | some .flush, .failAppend _ | some .flush, .failSnapshot _ | some .flush, .failTruncate _ =>
      (fileStep crc v.store call).map (⟨·, none⟩)
    | _, _ => none
  | .failCopy done =>
    match v.vacuum with
    | some (.copy plan) =>
      (copyMoves crc v.store.files (plan.take done)).map
        (fun f => ⟨{ v.store with files := f.syncAll }, none⟩)
    | some (.syncCopy _) => some ⟨{ v.store with files := v.store.files.syncAll }, none⟩
    | _ => none
  | .failRename =>
    match v.vacuum with
    | some (.rename plan backup) => some ⟨restoreBackup v.store plan backup, none⟩
    | _ => none
  | .failSyncDir landed =>
    match v.vacuum with
    | some (.syncDir plan backup) =>
      let s := { v.store with files := { v.store.files with
        snapshot := if landed then v.store.files.renamed.getD v.store.files.snapshot
          else v.store.files.snapshot
        renamed := none } }
      some ⟨restoreBackup s plan backup, none⟩
    | _ => none
  | .failTruncate gone =>
    match v.vacuum with
    | some (.truncate _ _) | some (.syncTruncate _ _) =>
      some ⟨if gone then cutLog v.store
        else { v.store with files := { v.store.files with truncated := false } }, none⟩
    | _ => none
  | .failTrim =>
    match v.vacuum with
    | some (.trim _) | some .syncTrim =>
      some ⟨{ v.store with files := v.store.files.syncAll }, none⟩
    | _ => none
  | .reopen c => (openStore crc (v.store.files.crash c)).toOption.map (⟨·, none⟩)

def VacuumStore.created : VacuumStore := ⟨.created, none⟩

/-! ## Copying a slot -/

section Copy

variable {crc : List Byte → UInt32} {f f' : Files}

lemma relocateRecord_encode (guid : Guid) (slot slot' : ℕ) (image : Image) :
    relocateRecord crc (encodeRecord crc guid slot image) slot' =
      encodeRecord crc guid slot' image := by
  have hparts : ∀ s, recordBody crc guid s image pageCount =
      (recordMagic ++ guid.val) ++ bytes 8 s ++
        ((List.finRange pageCount).flatMap (checksumField crc image pageCount) ++
          bytes 4 pageCount ++ List.replicate 24 0) := by
    intro s
    simp only [recordBody, append_assoc]
  have hhead : (recordMagic ++ guid.val).length = 24 := by
    rw [length_append, guid.2]
    rfl
  have htake : (encodeRecord crc guid slot image).take recordChecksumOffset =
      recordBody crc guid slot image pageCount :=
    take_left' (length_recordBody guid slot image pageCount)
  have hbody : (encodeRecord crc guid slot image).take 24 ++ bytes 8 slot' ++
      ((encodeRecord crc guid slot image).take recordChecksumOffset).drop 32 =
      recordBody crc guid slot' image pageCount := by
    rw [htake, hparts slot, hparts slot', encodeRecord, encodePrefix, hparts slot]
    have hdrop : (recordMagic ++ guid.val ++ bytes 8 slot).length = 32 := by
      rw [length_append, hhead, length_bytes]
    rw [drop_left' hdrop, append_assoc, append_assoc, append_assoc,
      take_left' hhead]
    simp only [append_assoc]
  simp only [relocateRecord, hbody]
  rfl

/-- A blob in its slot can be copied, and nothing changes outside the target. -/
lemma copyMove_spec {item : SlotMove} {image : Image}
    (hstored : Stored crc f item.fromSlot item.guid image) :
    ∃ f', copyMove crc f item = some f' ∧ Stored crc f' item.toSlot item.guid image ∧
      SameLog f f' ∧ ∀ slot, slot ≠ item.toSlot → SameSlot f f' slot := by
  have hread : readFrame crc (encodeRecord crc item.guid item.fromSlot image) item.guid
      item.fromSlot (fun page => f.data.now (item.fromSlot, page)) = .ok image := by
    simp only [hstored.pages]
    exact readFrame_encode item.guid item.fromSlot image
  have hkeys : ((List.finRange pageCount).map
      (fun page => ((item.toSlot, page), f.data.now (item.fromSlot, page)))).map Prod.fst =
      (List.finRange pageCount).map (fun page => (item.toSlot, page)) := by
    rw [List.map_map]
    rfl
  refine ⟨copySlot crc f item (encodeRecord crc item.guid item.fromSlot image), ?_,
    ⟨fun page => ?_, ?_⟩, ⟨rfl, rfl, rfl, rfl, rfl⟩, fun slot hslot => ⟨fun page => ?_, ?_⟩⟩
  · simp only [copyMove, hstored.record, hread]
  · rw [← hstored.pages page]
    refine CrashFile.writeAll_now_of_mem ?_ (List.mem_map.mpr ⟨page, mem_finRange page, rfl⟩)
    rw [hkeys]
    exact (nodup_finRange pageCount).map (fun _ _ heq => congrArg Prod.snd heq)
  · refine (Function.update_self item.toSlot _ f.integrity.now).trans ?_
    rw [relocateRecord_encode]
  · have hnot : (slot, page) ∉ ((List.finRange pageCount).map
        (fun page => ((item.toSlot, page), f.data.now (item.fromSlot, page)))).map Prod.fst := by
      rw [hkeys]
      intro hmem
      obtain ⟨p, -, heq⟩ := List.mem_map.mp hmem
      exact hslot (congrArg Prod.fst heq).symm
    obtain ⟨hnow, holder⟩ := CrashFile.writeAll_of_notMem (f := f.data) hnot
    exact ⟨hnow, fun hclean => holder.trans hclean⟩
  · exact ⟨Function.update_of_ne hslot _ _, fun hclean =>
      (Function.update_of_ne hslot _ f.integrity.older).trans hclean⟩

/-- The blobs of a plan are in their old slots and in their new ones. -/
def Copied (crc : List Byte → UInt32) (f : Files) (plan : List SlotMove) : Prop :=
  ∀ item ∈ plan, ∃ image, Stored crc f item.fromSlot item.guid image ∧
    Stored crc f item.toSlot item.guid image

lemma Copied.of_same {plan : List SlotMove} (h : Copied crc f plan)
    (hsame : ∀ slot, SameSlot f f' slot) : Copied crc f' plan := by
  intro item hitem
  obtain ⟨image, hfrom, hto⟩ := h item hitem
  exact ⟨image, hfrom.of_same (hsame _), hto.of_same (hsame _)⟩

lemma copyMoves_spec {plan : List SlotMove}
    (hstored : ∀ item ∈ plan, ∃ image, Stored crc f item.fromSlot item.guid image)
    (htargets : (plan.map SlotMove.toSlot).Nodup)
    (hapart : ∀ item ∈ plan, item.fromSlot ∉ plan.map SlotMove.toSlot) :
    ∃ f', copyMoves crc f plan = some f' ∧ Copied crc f' plan ∧ SameLog f f' ∧
      ∀ slot, slot ∉ plan.map SlotMove.toSlot → SameSlot f f' slot := by
  induction plan generalizing f with
  | nil => exact ⟨f, rfl, fun _ h => absurd h not_mem_nil, SameLog.refl f,
      fun slot _ => sameSlot_of_eq rfl rfl slot⟩
  | cons item plan ih =>
    obtain ⟨hfresh, htargets⟩ := nodup_cons.mp htargets
    obtain ⟨⟨image, himage⟩, hstored⟩ := forall_mem_cons.mp hstored
    obtain ⟨hapart₁, hapart⟩ := forall_mem_cons.mp hapart
    have hne : item.fromSlot ≠ item.toSlot := fun h => hapart₁ (h ▸ mem_cons_self)
    obtain ⟨f₁, hcopy, hto, hlog₁, hsame₁⟩ := copyMove_spec himage
    have hstored₁ : ∀ x ∈ plan, ∃ image, Stored crc f₁ x.fromSlot x.guid image := by
      intro x hx
      obtain ⟨y, hy⟩ := hstored x hx
      exact ⟨y, hy.of_same (hsame₁ _ fun h => hapart x hx (h ▸ mem_cons_self))⟩
    obtain ⟨f', hcopies, hcopied, hlog, hsame⟩ := ih hstored₁ htargets
      (fun x hx hmem => hapart x hx (mem_cons_of_mem _ hmem))
    refine ⟨f', ?_, forall_mem_cons.mpr ⟨⟨image, ?_, hto.of_same (hsame _ hfresh)⟩, hcopied⟩,
      ⟨hlog.snapshot.trans hlog₁.snapshot, hlog.renamed.trans hlog₁.renamed,
        hlog.log.trans hlog₁.log, hlog.appended.trans hlog₁.appended,
        hlog.truncated.trans hlog₁.truncated⟩, fun slot hslot => ?_⟩
    · rw [copyMoves, foldlM_cons, hcopy]
      exact hcopies
    · have hfrom : item.fromSlot ∉ plan.map SlotMove.toSlot :=
        fun h => hapart₁ (mem_cons_of_mem _ h)
      exact (himage.of_same (hsame₁ _ hne)).of_same (hsame _ hfrom)
    · rw [map_cons, mem_cons, not_or] at hslot
      have h₁ := hsame₁ slot hslot.1
      have h₂ := hsame slot hslot.2
      exact ⟨fun page => ⟨(h₂.pages page).1.trans (h₁.pages page).1,
          fun hc => (h₂.pages page).2 ((h₁.pages page).2 hc)⟩,
        ⟨h₂.record.1.trans h₁.record.1, fun hc => h₂.record.2 (h₁.record.2 hc)⟩⟩

end Copy

end Store
end Holt
