import Holt.Store.FileStore

/-!
# The invariant of the file blob store

Two things are kept at every step of every run.

The `Ledger` is about the manifest in memory: it is the flushed map with the pending changes
made to it, every slot that the flushed map or a pending change names is out of the hands of
the allocator, and what was written for it is in the slot.  Nothing is ever written into such
a slot, so what is synced in it stays (`Ledger.of_files`).

`Consistent` is about the snapshot and the log on disk.  Blobs without a pending change are
where the flushed map has them, and every other blob is where it was or where a pending change
puts it.  A log that also has some of the pending changes in it, because a flush has failed,
is still consistent, and so is the old log beside a new snapshot.
-/

namespace Holt
namespace Store

open List FrameLog

variable {crc : List Byte → UInt32}

/-! ## What is in a slot -/

/-- The image of a blob has been written into a slot. -/
structure Stored (crc : List Byte → UInt32) (f : Files) (slot : ℕ) (guid : Guid) (image : Image) :
    Prop where
  pages : ∀ page, f.data.now (slot, page) = some (image page)
  record : f.integrity.now slot = some (encodeRecord crc guid slot image)

/-- What is in a slot survives a crash. -/
structure Synced (f : Files) (slot : ℕ) : Prop where
  pages : ∀ page, f.data.Clean (slot, page)
  record : f.integrity.Clean slot

/-- A slot is the same in two states of the files. -/
structure SameSlot (f f' : Files) (slot : ℕ) : Prop where
  pages : ∀ page, f'.data.now (slot, page) = f.data.now (slot, page) ∧
    (f.data.Clean (slot, page) → f'.data.Clean (slot, page))
  record : f'.integrity.now slot = f.integrity.now slot ∧
    (f.integrity.Clean slot → f'.integrity.Clean slot)

variable {f f' : Files} {slot : ℕ}

lemma Stored.of_same {guid : Guid} {image : Image} (h : Stored crc f slot guid image)
    (hsame : SameSlot f f' slot) : Stored crc f' slot guid image :=
  ⟨fun page => (hsame.pages page).1.trans (h.pages page), hsame.record.1.trans h.record⟩

lemma Synced.of_same (h : Synced f slot) (hsame : SameSlot f f' slot) : Synced f' slot :=
  ⟨fun page => (hsame.pages page).2 (h.pages page), hsame.record.2 h.record⟩

lemma sameSlot_of_eq (hdata : f'.data = f.data) (hintegrity : f'.integrity = f.integrity)
    (slot : ℕ) :
    SameSlot f f' slot :=
  ⟨fun page => by rw [hdata]; exact ⟨rfl, id⟩, by rw [hintegrity]; exact ⟨rfl, id⟩⟩

lemma Synced.same_crash (h : Synced f slot) (c : Survival) : SameSlot f (f.crash c) slot :=
  ⟨fun page => ⟨CrashFile.crash_now_of_clean (h.pages page) _, fun _ => rfl⟩,
    ⟨CrashFile.crash_now_of_clean h.record _, fun _ => rfl⟩⟩

lemma readBlob_of_stored {m : Manifest} {guid : Guid} {image : Image}
    (hlookup : m.entries.lookup guid = some slot) (h : Stored crc f slot guid image) :
    readBlob crc f m guid = .ok image := by
  simp only [readBlob, hlookup, h.record, h.pages]
  exact readFrame_encode guid slot image

/-! ## Changes of slots and changes of blobs -/

/-- Every blob of a map is in its slot, for good. -/
def Shows (crc : List Byte → UInt32) (f : Files) (slots : SlotMap)
    (images : Guid → Option Image) : Prop :=
  ∀ guid, (slots guid = none ∧ images guid = none) ∨
    ∃ slot image, slots guid = some slot ∧ images guid = some image ∧
      Stored crc f slot guid image ∧ Synced f slot

/-- A change of the manifest and the change of the blobs it stands for. -/
def Matches (crc : List Byte → UInt32) (f : Files) : ManifestDelta → BlobChange → Prop
  | .set guid slot, .write guid' image => guid' = guid ∧ Stored crc f slot guid image
  | .delete guid, .delete guid' => guid' = guid
  | _, _ => False

/-- The slots a list of changes writes to are synced. -/
def AllSynced (f : Files) (ds : List ManifestDelta) : Prop :=
  ∀ guid slot, .set guid slot ∈ ds → Synced f slot

variable {slots : SlotMap} {images : Guid → Option Image}

lemma Shows.of_same (h : Shows crc f slots images)
    (hsame : ∀ guid slot, slots guid = some slot → SameSlot f f' slot) :
    Shows crc f' slots images := by
  intro guid
  rcases h guid with hnone | ⟨slot, image, hslot, himage, hstored, hsynced⟩
  · exact .inl hnone
  · have := hsame guid slot hslot
    exact .inr ⟨slot, image, hslot, himage, hstored.of_same this, hsynced.of_same this⟩

lemma Shows.step (h : Shows crc f slots images) {d : ManifestDelta} {change : BlobChange}
    (hm : Matches crc f d change) (hsynced : ∀ guid slot, d = .set guid slot → Synced f slot) :
    Shows crc f (applyToMap slots d) (applyChange images change) := by
  intro k
  cases d with
  | set guid slot =>
    cases change with
    | write guid' image =>
      obtain ⟨rfl, hstored⟩ := hm
      rw [applyToMap_set, applyChange, Function.update_apply]
      by_cases hk : k = guid'
      · rw [if_pos hk, if_pos hk, hk]
        exact .inr ⟨slot, image, rfl, rfl, hstored, hsynced _ _ rfl⟩
      · rw [if_neg hk, if_neg hk]
        exact h k
    | delete guid' => exact hm.elim
  | delete guid =>
    cases change with
    | write guid' image => exact hm.elim
    | delete guid' =>
      obtain rfl : guid' = guid := hm
      rw [applyToMap_delete, applyChange, Function.update_apply]
      by_cases hk : k = guid'
      · rw [if_pos hk, if_pos hk]
        exact .inl ⟨rfl, rfl⟩
      · rw [if_neg hk, if_neg hk]
        exact h k

lemma Shows.advance {ds : List ManifestDelta} {changes : List BlobChange}
    (hm : List.Forall₂ (Matches crc f) ds changes) (hsynced : AllSynced f ds)
    (h : Shows crc f slots images) :
    Shows crc f (applyDeltas slots ds) (applyChanges images changes) := by
  induction hm generalizing slots images with
  | nil => exact h
  | @cons d change ds changes hd _ ih =>
    refine ih (fun guid slot hmem => hsynced guid slot (mem_cons_of_mem _ hmem))
      (h.step hd fun guid slot heq => ?_)
    exact hsynced guid slot (heq ▸ mem_cons_self)

/-- Changes of slots and the changes of blobs they stand for make the same blobs exist. -/
lemma isSome_applyDeltas {ds : List ManifestDelta} {changes : List BlobChange}
    (hm : List.Forall₂ (Matches crc f) ds changes)
    (h : ∀ guid, (slots guid).isSome = (images guid).isSome) (guid : Guid) :
    (applyDeltas slots ds guid).isSome = (applyChanges images changes guid).isSome := by
  induction hm generalizing slots images with
  | nil => exact h guid
  | @cons d change ds changes hd _ ih =>
    refine ih fun k => ?_
    cases d <;> cases change <;> try exact hd.elim
    · rw [applyToMap_set, applyChange, Function.update_apply, hd.1]
      split_ifs
      · rfl
      · exact h k
    · rw [applyToMap_delete, applyChange, Function.update_apply, show _ = _ from hd]
      split_ifs
      · rfl
      · exact h k

lemma Matches.of_same {d : ManifestDelta} {change : BlobChange} (h : Matches crc f d change)
    (hsame : ∀ guid slot, d = .set guid slot → SameSlot f f' slot) : Matches crc f' d change := by
  cases d with
  | set guid slot =>
    cases change with
    | write guid' image => exact ⟨h.1, h.2.of_same (hsame guid slot rfl)⟩
    | delete guid' => exact h
  | delete guid =>
    cases change with
    | write guid' image => exact h
    | delete guid' => exact h

/-! ## The manifest in memory -/

/-- A slot that the allocator may not give out. -/
def Busy (m : Manifest) (slot : ℕ) : Prop := slot ∈ entrySlots m.entries ∨ slot ∈ m.pendingFree

structure Ledger (crc : List Byte → UInt32) (f : Files) (m : Manifest) (h : History)
    (reserved : List ℕ) : Prop where
  sound : m.Sound reserved
  capacity : m.nextSlot ≤ maxSlots
  entries : m.entries.lookup = applyDeltas h.slots m.pendingLog
  one : OneEach h.slots
  flushedBusy : ∀ guid slot, h.slots guid = some slot → Busy m slot
  pendingBusy : ∀ guid slot, .set guid slot ∈ m.pendingLog → Busy m slot
  /-- A pending change uses a slot of its own. -/
  fresh : ∀ guid slot, .set guid slot ∈ m.pendingLog → ∀ guid', h.slots guid' ≠ some slot
  unique : ∀ guid guid' slot, .set guid slot ∈ m.pendingLog → .set guid' slot ∈ m.pendingLog →
    guid = guid'
  shows : Shows crc f h.slots h.images
  pending : List.Forall₂ (Matches crc f) m.pendingLog h.changes

namespace Ledger

variable {f f' : Files} {m : Manifest} {h : History} {reserved : List ℕ}

variable (hl : Ledger crc f m h reserved)
include hl

lemma of_files (hsame : ∀ slot, Busy m slot → SameSlot f f' slot) : Ledger crc f' m h reserved :=
  { hl with
    shows := hl.shows.of_same (fun guid slot hslot => hsame slot (hl.flushedBusy guid slot hslot))
    pending := by
      have hall : ∀ d ∈ m.pendingLog, ∀ guid slot, d = .set guid slot → SameSlot f f' slot :=
        fun d hd guid slot heq => hsame slot (hl.pendingBusy guid slot (heq ▸ hd))
      exact ((forall₂_and_left _ _).mpr ⟨hall, hl.pending⟩).imp
        (fun _ _ hm => hm.2.of_same hm.1) }

variable {slot : ℕ}

lemma not_busy (hslot : slot ∈ reserved) : ¬ Busy m slot := by
  intro hbusy
  refine (nodup_append.mp hl.sound.nodup).2.2 slot hslot slot ?_ rfl
  rw [Manifest.slots, append_assoc, mem_append, mem_append]
  rcases hbusy with hentry | hfree
  · exact .inl hentry
  · exact .inr (.inl hfree)

variable {guid : Guid}

omit hl in
lemma busy_publish {s : ℕ} (hs : Busy m s) : Busy (m.publishWriteEntry guid slot) s := by
  rcases hs with hentry | hfree
  · have hsplit := (entrySlots_erase m.entries guid).mem_iff.mp hentry
    rcases mem_append.mp hsplit with hold | hrest
    · exact .inr (mem_append_right _ hold)
    · left
      rw [Manifest.publishWriteEntry, entrySlots_insert]
      exact mem_cons_of_mem _ hrest
  · exact .inr (mem_append_left _ hfree)

omit hl in
/-- A reserved slot with an image in it becomes the slot of its blob. -/
lemma publish {image : Image} (hl : Ledger crc f m h (slot :: reserved))
    (hstored : Stored crc f slot guid image) : Ledger crc f (m.publishWriteEntry guid slot)
      { h with changes := h.changes ++ [.write guid image] } reserved := by
  have hnot : ¬ Busy m slot := hl.not_busy mem_cons_self
  have hmem : ∀ {g s}, .set g s ∈ (m.publishWriteEntry guid slot).pendingLog →
      .set g s ∈ m.pendingLog ∨ (g = guid ∧ s = slot) := by
    intro g s hset
    rcases mem_append.mp hset with hold | hnew
    · exact .inl hold
    · exact .inr (by simpa using hnew)
  refine ⟨Manifest.publishWriteEntry_sound hl.sound, hl.capacity, ?_, hl.one,
    fun g s hs => busy_publish (hl.flushedBusy g s hs), fun g s hset => ?_,
      fun g s hset g' hg' => ?_,
    fun g g' s hset hset' => ?_, hl.shows, ?_⟩
  · change (m.entries.insert guid slot).lookup = _
    rw [lookup_insert_entries, hl.entries]
    exact (applyDeltas_concat _ _ _).symm
  · rcases hmem hset with hold | ⟨rfl, rfl⟩
    · exact busy_publish (hl.pendingBusy g s hold)
    · exact .inl (by rw [Manifest.publishWriteEntry, entrySlots_insert]; exact mem_cons_self)
  · rcases hmem hset with hold | ⟨rfl, rfl⟩
    · exact hl.fresh g s hold g' hg'
    · exact hnot (hl.flushedBusy g' s hg')
  · rcases hmem hset with hold | ⟨rfl, rfl⟩
    · rcases hmem hset' with hold' | ⟨rfl, rfl⟩
      · exact hl.unique g g' s hold hold'
      · exact absurd (hl.pendingBusy g s hold) hnot
    · rcases hmem hset' with hold' | ⟨rfl, -⟩
      · exact absurd (hl.pendingBusy g' s hold') hnot
      · rfl
  · exact rel_append hl.pending (List.Forall₂.cons ⟨rfl, hstored⟩ List.Forall₂.nil)

lemma delete (hmem : guid ∈ m.entries) :
    Ledger crc f (m.deleteEntry guid)
      { h with changes := h.changes ++ [.delete guid] } reserved := by
  obtain ⟨slot, hslot⟩ := Option.isSome_iff_exists.mp (AList.lookup_isSome.mpr hmem)
  have heq : m.deleteEntry guid = { m with
      entries := m.entries.erase guid
      pendingFree := m.pendingFree ++ [slot]
      pendingLog := m.pendingLog ++ [.delete guid] } := by
    simp only [Manifest.deleteEntry, hslot]
  have hold : ∀ {g s}, .set g s ∈ (m.deleteEntry guid).pendingLog → .set g s ∈ m.pendingLog := by
    intro g s hset
    rw [heq] at hset
    simpa using hset
  have hbusy : ∀ {s}, Busy m s → Busy (m.deleteEntry guid) s := by
    intro s hs
    rw [heq]
    rcases hs with hentry | hfree
    · have hsplit := (entrySlots_erase m.entries guid).mem_iff.mp hentry
      rw [hslot, Option.toList_some, singleton_append, mem_cons] at hsplit
      rcases hsplit with rfl | hrest
      · exact .inr (mem_append_right _ mem_cons_self)
      · exact .inl hrest
    · exact .inr (mem_append_left _ hfree)
  refine ⟨Manifest.deleteEntry_sound hl.sound guid, ?_, ?_, hl.one,
    fun g s hs => hbusy (hl.flushedBusy g s hs), fun g s hset =>
      hbusy (hl.pendingBusy g s (hold hset)),
    fun g s hset => hl.fresh g s (hold hset),
    fun g g' s hset hset' => hl.unique g g' s (hold hset) (hold hset'), hl.shows, ?_⟩
  · rw [heq]
    exact hl.capacity
  · rw [heq]
    change (m.entries.erase guid).lookup = _
    rw [lookup_erase_entries, hl.entries]
    exact (applyDeltas_concat _ _ _).symm
  · rw [heq]
    exact rel_append hl.pending (List.Forall₂.cons rfl List.Forall₂.nil)

/-- The manifest may be replaced by one with the same entries and the same changes. -/
lemma of_manifest {m' : Manifest} {reserved' : List ℕ} (hsound : m'.Sound reserved')
    (hcapacity : m'.nextSlot ≤ maxSlots) (hentries : m'.entries = m.entries)
    (hfree : m'.pendingFree = m.pendingFree) (hlog : m'.pendingLog = m.pendingLog) :
    Ledger crc f m' h reserved' := by
  have hbusy : ∀ {s}, Busy m s → Busy m' s := fun hs => by
    rw [Busy, hentries, hfree]
    exact hs
  refine ⟨hsound, hcapacity, ?_, hl.one, fun g s hs => hbusy (hl.flushedBusy g s hs), ?_, ?_, ?_,
    hl.shows, hlog ▸ hl.pending⟩
  · rw [hentries, hlog]
    exact hl.entries
  · rw [hlog]
    exact fun g s hset => hbusy (hl.pendingBusy g s hset)
  · rw [hlog]
    exact hl.fresh
  · rw [hlog]
    exact hl.unique

lemma fail : Ledger crc f m { h with failed := true } reserved :=
  { hl with }

lemma request (writes : List (Guid × Image)) :
    Ledger crc f m { h with requested := writes } reserved :=
  { hl with }

/-- The manifest has an entry for just the blobs that a reader expects. -/
lemma mem_entries (guid : Guid) :
    guid ∈ m.entries ↔ (h.current guid).isSome := by
  rw [← AList.lookup_isSome, congrFun hl.entries guid]
  refine Bool.eq_iff_iff.mp (isSome_applyDeltas hl.pending (fun g => ?_) guid)
  rcases hl.shows g with ⟨hslot, himage⟩ | ⟨slot, image, hslot, himage, -⟩ <;>
    simp [hslot, himage]

omit hl

/-- The pending changes are in the log: what the manifest says is flushed. -/
lemma finish (hl : Ledger crc f m h []) (hsynced : AllSynced f m.pendingLog) :
    Ledger crc f { m with pendingLog := [] }.publishPendingFreeSlots
      { h with images := h.current, slots := m.entries.lookup, changes := [], failed := false }
      [] := by
  have hsound : { m with pendingLog := [] }.publishPendingFreeSlots.Sound [] :=
    Manifest.publishPendingFreeSlots_sound (hl.sound.of_perm rfl (List.Perm.refl _))
  refine ⟨hsound, hl.capacity, rfl, hl.sound.oneEach, fun g s hs => ?_, nofun, nofun, nofun, ?_,
    List.Forall₂.nil⟩
  · exact .inl (mem_entrySlots.mpr ⟨g, hs⟩)
  · rw [hl.entries]
    exact hl.shows.advance hl.pending hsynced

end Ledger

/-! ## The manifest on disk -/

/-- A snapshot and a log that can be opened. -/
structure Loadable (base : Entries) (baseNext : ℕ) (ds : List ManifestDelta) : Prop where
  one : OneEach base.lookup
  below : ∀ guid slot, base.lookup guid = some slot → slot < baseNext
  next : baseNext ≤ maxSlots
  count : base.entries.length < 2 ^ 32
  slots : ∀ guid slot, .set guid slot ∈ ds → slot < maxSlots
  noConflict : NoConflict ds

/-- A snapshot and a log fit the flushed map and the pending changes. -/
structure Consistent (base : SlotMap) (ds : List ManifestDelta) (slots : SlotMap)
    (pending : List ManifestDelta) : Prop where
  agree : ∀ guid, (∀ d ∈ pending, d.guid ≠ guid) → applyDeltas base ds guid = slots guid
  placed : ∀ guid slot, applyDeltas base ds guid = some slot →
    slots guid = some slot ∨ .set guid slot ∈ pending

namespace Consistent

variable {base slots : SlotMap} {ds pending part : List ManifestDelta}

lemma of_flushed (h : applyDeltas base ds = slots) : Consistent base ds slots pending :=
  ⟨fun _ _ => h ▸ rfl, fun _ _ hslot => .inl (h ▸ hslot)⟩

lemma of_applied (h : applyDeltas base ds = applyDeltas slots pending) :
    Consistent base ds slots pending :=
  ⟨fun _ hnot => h ▸ applyDeltas_of_not_mem hnot slots, fun _ _ hslot =>
    mem_of_applyDeltas (h ▸ hslot)⟩

lemma append (hc : Consistent base ds slots pending) (hpart : ∀ d ∈ part, d ∈ pending) :
    Consistent base (ds ++ part) slots pending := by
  refine ⟨fun guid hnot => ?_, fun guid slot hslot => ?_⟩
  · rw [applyDeltas_append, applyDeltas_of_not_mem (fun d hd => hnot d (hpart d hd))]
    exact hc.agree guid hnot
  · rw [applyDeltas_append] at hslot
    rcases mem_of_applyDeltas hslot with hold | hset
    · exact hc.placed guid slot hold
    · exact .inr (hpart _ hset)

/-- With all pending changes in the log, it says what the manifest says. -/
lemma applyDeltas_append_pending (hc : Consistent base ds slots pending) :
    applyDeltas base (ds ++ pending) = applyDeltas slots pending := by
  funext guid
  rw [applyDeltas_append]
  by_cases h : ∃ d ∈ pending, d.guid = guid
  · exact applyDeltas_eq_of_mem h _ _
  · have hnot : ∀ d ∈ pending, d.guid ≠ guid := fun d hd heq => h ⟨d, hd, heq⟩
    rw [applyDeltas_of_not_mem hnot, applyDeltas_of_not_mem hnot]
    exact hc.agree guid hnot

lemma of_append (hc : Consistent base ds slots pending) (more : List ManifestDelta) :
    Consistent base ds slots (pending ++ more) :=
  ⟨fun guid hnot => hc.agree guid (fun d hd => hnot d (mem_append_left _ hd)),
    fun guid slot hslot => (hc.placed guid slot hslot).imp_right (mem_append_left _)⟩

end Consistent

namespace Ledger

variable {f : Files} {m : Manifest} {h : History} {reserved : List ℕ} {base : Entries}
  {baseNext : ℕ} {ds part : List ManifestDelta}

lemma oneEach (hl : Ledger crc f m h reserved)
    (hc : Consistent base.lookup ds h.slots m.pendingLog) :
    OneEach (applyDeltas base.lookup ds) := by
  intro guid guid' slot hslot hslot'
  rcases hc.placed guid slot hslot with hold | hset
  · rcases hc.placed guid' slot hslot' with hold' | hset'
    · exact hl.one guid guid' slot hold hold'
    · exact absurd hold (hl.fresh guid' slot hset' guid)
  · rcases hc.placed guid' slot hslot' with hold' | hset'
    · exact absurd hold' (hl.fresh guid slot hset guid')
    · exact hl.unique guid guid' slot hset hset'

lemma slot_lt (hl : Ledger crc f m h reserved) {slot : ℕ} (hbusy : Busy m slot) :
    slot < maxSlots := by
  refine lt_of_lt_of_le (hl.sound.below slot ?_) hl.capacity
  rw [Manifest.slots, mem_append, mem_append, mem_append]
  rcases hbusy with hentry | hfree
  · exact .inr (.inl (.inl hentry))
  · exact .inr (.inl (.inr hfree))

/-- Pending changes may be appended to the log: they use slots of their own. -/
lemma loadable_append (hl : Ledger crc f m h reserved) (hload : Loadable base baseNext ds)
    (hc : Consistent base.lookup ds h.slots m.pendingLog)
    (hpart : ∀ d ∈ part, d ∈ m.pendingLog) : Loadable base baseNext (ds ++ part) := by
  refine { hload with slots := fun guid slot hset => ?_, noConflict := ?_ }
  · rcases mem_append.mp hset with hold | hnew
    · exact hload.slots guid slot hold
    · exact hl.slot_lt (hl.pendingBusy guid slot (hpart _ hnew))
  · refine hload.noConflict.append fun before guid slot after hsplit other hother hslot => ?_
    have hmem : ∀ d ∈ before, d ∈ m.pendingLog := fun d hd =>
      hpart d (hsplit ▸ mem_append_left _ hd)
    have hset : .set guid slot ∈ m.pendingLog :=
      hpart _ (hsplit ▸ mem_append_right _ mem_cons_self)
    -- wherever the other blob got the slot from, it is not free for this one
    rcases (hc.append hmem).placed other slot (applyDeltas_of_empty hslot _) with hold | hset'
    · exact hl.fresh guid slot hset other hold
    · exact hother (hl.unique other guid slot hset' hset)

end Ledger

/-- The files hold a manifest that opens with the given map. -/
def Recovers (crc : List Byte → UInt32) (f : Files) (map : SlotMap) : Prop :=
  ∃ base baseNext ds tail, f.snapshot = encodeSnapshot base baseNext ∧
    f.log = frames crc ds ++ tail ∧ logHead crc tail = .torn ∧ Loadable base baseNext ds ∧
    applyDeltas base.lookup ds = map

/-- What the snapshot and the log hold while the pending changes are not flushed. -/
structure Unflushed (crc : List Byte → UInt32) (s : FileStore) (base : Entries) (baseNext : ℕ)
    (ds : List ManifestDelta) : Prop where
  snapshot : s.files.snapshot = encodeSnapshot base baseNext
  log : s.files.log = frames crc ds
  renamed : s.files.renamed = none
  truncated : s.files.truncated = false
  loadable : Loadable base baseNext ds
  consistent : Consistent base.lookup ds s.history.slots s.manifest.pendingLog
  /-- Without a failed flush, the disk is what was flushed. -/
  exact : s.history.failed = false → applyDeltas base.lookup ds = s.history.slots
  synced : ∀ guid slot, applyDeltas base.lookup ds guid = some slot → Synced s.files slot

/-- What they hold when the pending changes are in the log. -/
structure Flushed (crc : List Byte → UInt32) (s : FileStore) (base : Entries) (baseNext : ℕ)
    (ds : List ManifestDelta) : Prop where
  snapshot : s.files.snapshot = encodeSnapshot base baseNext
  log : s.files.log = frames crc ds
  appended : s.files.appended = []
  loadable : Loadable base baseNext ds
  exact : applyDeltas base.lookup ds = s.manifest.entries.lookup

/-- The data and the integrity records are synced. -/
structure AllClean (f : Files) : Prop where
  data : ∀ i, f.data.Clean i
  integrity : ∀ slot, f.integrity.Clean slot

lemma AllClean.synced (h : AllClean f) (slot : ℕ) : Synced f slot :=
  ⟨fun page => h.data (slot, page), h.integrity slot⟩

def reservedSlots : Phase → List ℕ
  | .writing _ prepared => prepared.map PreparedBlobWrite.slot
  | _ => []

/-- Nothing of the pending changes is in the log, unless a flush has failed. -/
def Waiting (crc : List Byte → UInt32) (s : FileStore) : Prop :=
  ∃ base baseNext ds, Unflushed crc s base baseNext ds ∧ s.files.appended = []

/-- A clean manifest has nothing pending. -/
def Undirty (s : FileStore) : Prop :=
  s.manifestDirty = false → s.manifest.pendingLog = [] ∧ s.history.failed = false

/-- The write in progress writes what it was called with. -/
def Requested (s : FileStore) (prepared : List PreparedBlobWrite) : Prop :=
  prepared.map (fun w => (w.guid, w.src)) = s.history.requested

/-- What holds at each point of a call. -/
def PhaseInv (crc : List Byte → UInt32) (s : FileStore) : Phase → Prop
  | .idle => Waiting crc s ∧ Undirty s
  | .writing .pwrite prepared => Waiting crc s ∧ Undirty s ∧ Requested s prepared
  | .writing .records prepared => Waiting crc s ∧ Undirty s ∧ Requested s prepared ∧
    ∀ w ∈ prepared, ∀ page, s.files.data.now (w.slot, page) = some (w.src page)
  | .writing .publish prepared => Waiting crc s ∧ Undirty s ∧ Requested s prepared ∧
    ∀ w ∈ prepared, Stored crc s.files w.slot w.guid w.src
  | .flushing .syncData => Waiting crc s ∧ Undirty s
  | .flushing .syncIntegrity => Waiting crc s ∧ Undirty s ∧ ∀ i, s.files.data.Clean i
  | .flushing .append => Waiting crc s ∧ AllClean s.files
  | .flushing .syncLog => AllClean s.files ∧
    ∃ base baseNext ds, Unflushed crc s base baseNext ds ∧
      s.files.appended = frames crc s.manifest.pendingLog
  | .flushing .rename => AllClean s.files ∧ ∃ base baseNext ds, Flushed crc s base baseNext ds ∧
    s.files.renamed = none ∧ s.files.truncated = false
  | .flushing .syncDir => AllClean s.files ∧ ∃ base baseNext ds, Flushed crc s base baseNext ds ∧
    s.files.renamed = some (encodeSnapshot s.manifest.entries s.manifest.nextSlot) ∧
    s.files.truncated = false ∧ s.manifest.entries.entries.length < 2 ^ 32
  | .flushing .truncate => AllClean s.files ∧ ∃ base baseNext ds, Flushed crc s base baseNext ds ∧
    s.files.renamed = none ∧ s.files.truncated = false ∧ base.lookup = s.manifest.entries.lookup
  | .flushing .syncTruncate => AllClean s.files ∧ ∃ base baseNext ds,
    Flushed crc s base baseNext ds ∧ s.files.renamed = none ∧
    base.lookup = s.manifest.entries.lookup

structure FileInv (crc : List Byte → UInt32) (s : FileStore) : Prop where
  ledger : Ledger crc s.files s.manifest s.history (reservedSlots s.phase)
  data : s.dataDirty = false → ∀ i, s.files.data.Clean i
  integrity : s.integrityDirty = false → ∀ slot, s.files.integrity.Clean slot
  phase : PhaseInv crc s s.phase

end Store
end Holt
