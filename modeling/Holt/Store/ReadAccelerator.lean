import Holt.Lib.CrashFile
import Holt.Lib.Transition
import Holt.Store.RecordFrame

/-!
# Read indexes on disk

Beside the blobs a file store keeps two files for cold reads: each slot has an area for the
index of its image in `read.idx` and one for the values in `value.seg`.  A checkpoint clears
the start of both areas of the slot it is about to write, writes the image, and then publishes
the index: values, the part of the index past its first 512 bytes, and last these first bytes,
which hold the stamp.  None of this is ever synced.  A reader trusts an index whose stamp is
that of the frame in the slot.

A crash may bring back what a part of an area held before, an index of an older image of the blob
for one.  The stamp tells unless a value was overwritten in place since: then the old index can
pass the check (`stale_index_after_crash`).  Nothing else ties the first bytes of an index to the
rest, so a mix of two publications is left open here: `mixed` is what a reader makes of it.  What
survives of the manifest and the images is the business of the file store; here a crash leaves one
of the manifests it may leave, and slots keep their images.
-/

namespace Holt
namespace Store

open Function List Option Transition

/-- The two writes of an index: its first 512 bytes and the rest. -/
inductive IndexPart
  | head
  | tail
deriving DecidableEq

/-- The blobs in memory, the slots with their images, and the areas of the slots.  A part of an
index is known by the image it was built from, cleared bytes by `none`. -/
structure AccelStore where
  frames : Guid → Option RecordFrame
  images : ℕ → Option RecordFrame
  manifest : Entries
  /-- The manifests a crash may leave. -/
  survivors : List Entries
  index : CrashFile (ℕ × IndexPart) (Option RecordFrame)
  segments : CrashFile ℕ (List Byte)
  /-- How many of its three writes the publication of a slot's index has made. -/
  progress : ℕ → ℕ

namespace AccelStore

/-- A new store. -/
def created : AccelStore where
  frames _ := none
  images _ := none
  manifest := ∅
  survivors := [∅]
  index := CrashFile.synced fun _ => none
  segments := CrashFile.synced fun _ => []
  progress _ := 3

variable (s : AccelStore)

def setFrame (guid : Guid) (f : RecordFrame) : AccelStore :=
  { s with frames := Function.update s.frames guid (some f) }

/-- `READ_INDEX_IO_ALIGN` and `VALUE_SEGMENT_IO_ALIGN`. -/
def ioAlign : ℕ := 512

/-- The slot is in no manifest, in memory or on disk. -/
def FreeSlot (slot : ℕ) : Prop := ∀ m ∈ s.manifest :: s.survivors, slot ∉ m.entries.map Sigma.snd

instance (slot : ℕ) : Decidable (s.FreeSlot slot) :=
  inferInstanceAs (Decidable (∀ m ∈ s.manifest :: s.survivors, slot ∉ m.entries.map Sigma.snd))

/-- `clear_read_accelerator_slot`, then the write of an image and its entry in the manifest. -/
def writeImage (guid : Guid) (slot : ℕ) (f : RecordFrame) : AccelStore := { s with
  images := Function.update s.images slot (some f)
  manifest := s.manifest.insert guid slot
  index := s.index.write (slot, .head) none
  segments := s.segments.write slot
    (List.replicate ioAlign 0 ++ (s.segments.now slot).drop ioAlign)
  progress := Function.update s.progress slot 0 }

/-- The next write of `publish_read_index`. -/
def publishNext (slot : ℕ) (f : RecordFrame) : AccelStore :=
  let next := { s with progress := Function.update s.progress slot (s.progress slot + 1) }
  match s.progress slot with
  | 0 =>
    let values := packValues f.leaves
    { next with
      segments := s.segments.write slot (values ++ (s.segments.now slot).drop values.length) }
  | 1 => { next with index := s.index.write (slot, .tail) (some f) }
  | 2 => { next with index := s.index.write (slot, .head) (some f) }
  | _ => s

/-- A crash and the reopening. -/
def crash (m : Entries) (pickIndex : ℕ × IndexPart → ℕ) (pickSegment : ℕ → ℕ) : AccelStore :=
  { s with
    frames := fun guid => (m.lookup guid).bind s.images
    manifest := m
    survivors := [m]
    index := s.index.crash pickIndex
    segments := s.segments.crash pickSegment
    progress := fun _ => 3 }

end AccelStore

inductive AccelAction
  /-- A new blob, or a rebuilt one. -/
  | rebuild (guid : Guid) (f : RecordFrame)
  | change (guid : Guid) (u : FrameUpdate)
  | writeImage (guid : Guid) (slot : ℕ)
  | publish (guid : Guid)
  | appendManifest
  | syncManifest
  | crash (survivor : ℕ) (pickIndex : ℕ × IndexPart → ℕ) (pickSegment : ℕ → ℕ)

def accelStep (s : AccelStore) : AccelAction → Option AccelStore
  | .rebuild guid f => some (s.setFrame guid f)
  | .change guid u => ((s.frames guid).bind fun f => f.step u).map (s.setFrame guid)
  | .writeImage guid slot =>
    if s.FreeSlot slot then (s.frames guid).map (s.writeImage guid slot) else none
  | .publish guid =>
    match s.manifest.lookup guid with
    | none => none
    | some slot => (s.images slot).map (s.publishNext slot)
  | .appendManifest => some { s with survivors := s.manifest :: s.survivors }
  | .syncManifest => some { s with survivors := [s.manifest] }
  | .crash survivor pickIndex pickSegment =>
    (s.survivors[survivor]?).map fun m => s.crash m pickIndex pickSegment

section Lookup

variable (crc32 : List Byte → ℕ)
  (mixed : RecordFrame → RecordFrame → List Byte → Key → ℕ → IndexedBlobLookup)

/-- A lookup through the index in the area of a slot that holds `image`: `read_index_load` with
its stamp check, then `read_index_lookup`.  Without its second part an index has no buckets and
is not accepted. -/
def AccelStore.onDiskLookup (s : AccelStore) (slot : ℕ) (image : RecordFrame) (key : Key)
    (depth : ℕ) : IndexedBlobLookup :=
  match s.index.now (slot, .head), s.index.now (slot, .tail) with
  | some h, some t =>
    if h.header = image.header then
      if t = h then indexLookup crc32 h (s.segments.now slot) key depth
      else mixed h t (s.segments.now slot) key depth
    else .unknown
  | _, _ => .unknown

/-! ## The condition -/

/-- What a slot with this image comes back with after a crash.  The first bytes of an index are
cleared, or have a stamp that is not the image's, or are those of the image's own index; in that
case the rest of the index and the values are its own as well or are cleared, which the checksums
of the values tell. -/
def Distinguished (s : AccelStore) (slot : ℕ) (image : RecordFrame) : Prop :=
  ∀ head ∈ s.index.now (slot, .head), head.header ≠ image.header ∨ head = image ∧
    (s.index.now (slot, .tail) = none ∨ s.index.now (slot, .tail) = some image) ∧
    ((∀ x ∈ s.segments.now slot, x = 0) ∧ ZerosDetected crc32 image ∨
      packValues image.leaves <+: s.segments.now slot)

/-- Whatever a crash leaves of an index with the stamp of the image in its slot is of that image's
index, unless the crash loses nothing of the area. -/
def CrashDistinguished (s : AccelStore) : AccelAction → Prop
  | .crash survivor pickIndex pickSegment =>
    ∀ m ∈ s.survivors[survivor]?, ∀ slot ∈ m.entries.map Sigma.snd, ∀ image ∈ s.images slot,
      Distinguished crc32 (s.crash m pickIndex pickSegment) slot image ∨
        pickIndex (slot, .head) = 0 ∧ pickIndex (slot, .tail) = 0 ∧ pickSegment slot = 0
  | _ => True

instance (s : AccelStore) (slot : ℕ) (image : RecordFrame) :
    Decidable (Distinguished crc32 s slot image) := by
  unfold Distinguished
  have hzeros (b : List Byte) : Decidable (∀ x ∈ b, x = 0) := List.decidableBAll _ b
  infer_instance

instance (s : AccelStore) (a : AccelAction) : Decidable (CrashDistinguished crc32 s a) := by
  cases a with
  | crash survivor pickIndex pickSegment =>
    unfold CrashDistinguished
    infer_instance
  | _ => exact instDecidableTrue

/-! ## The invariant -/

/-- The area of a slot can only answer for the image in it, and a publication under way has
written what it should have. -/
structure AreaOk (s : AccelStore) (slot : ℕ) (image : RecordFrame) : Prop where
  answers : ∀ head ∈ s.index.now (slot, .head), head.header ≠ image.header ∨ head = image ∧
    (s.index.now (slot, .tail) = none ∨ s.index.now (slot, .tail) = some image ∧
      SegmentServes crc32 image (s.segments.now slot))
  values : s.progress slot = 1 ∨ s.progress slot = 2 →
    packValues image.leaves <+: s.segments.now slot
  tail : s.progress slot = 2 → s.index.now (slot, .tail) = some image

/-- The slots some manifest refers to. -/
def AccelStore.Referenced (s : AccelStore) (slot : ℕ) : Prop :=
  ∃ m ∈ s.manifest :: s.survivors, slot ∈ m.entries.map Sigma.snd

/-- The areas of all slots that are referred to are in order. -/
def AccelInv (s : AccelStore) : Prop :=
  ∀ slot image, s.Referenced slot → s.images slot = some image → AreaOk crc32 s slot image

end Lookup

section Steps

variable {crc32 : List Byte → ℕ} {s : AccelStore}

variable {slot : ℕ}

/-- Only the area, the progress and the image of the slot matter. -/
lemma AreaOk.congr {s' : AccelStore} {image : RecordFrame} (h : AreaOk crc32 s slot image)
    (hindex : ∀ part, s'.index.now (slot, part) = s.index.now (slot, part))
    (hsegment : s'.segments.now slot = s.segments.now slot)
    (hprogress : s'.progress slot = s.progress slot) : AreaOk crc32 s' slot image where
  answers := by
    rw [hindex, hindex, hsegment]
    exact h.answers
  values := by
    rw [hprogress, hsegment]
    exact h.values
  tail := by
    rw [hprogress, hindex]
    exact h.tail

lemma accelInv_created : AccelInv crc32 AccelStore.created := by
  intro slot image _ himage
  cases himage

lemma AccelInv.setFrame (h : AccelInv crc32 s) (guid : Guid) (f : RecordFrame) :
    AccelInv crc32 (s.setFrame guid f) := fun slot image href himage =>
  (h slot image href himage).congr (fun _ => rfl) rfl rfl

lemma mem_slots_insert {m : Entries} {guid : Guid} {x : ℕ}
    (h : x ∈ (m.insert guid slot).entries.map Sigma.snd) :
    x = slot ∨ x ∈ m.entries.map Sigma.snd := by
  rw [AList.entries_insert, map_cons, mem_cons] at h
  refine h.imp id fun hmem => ?_
  obtain ⟨e, he, rfl⟩ := List.mem_map.mp hmem
  exact List.mem_map_of_mem ((kerase_sublist guid m.entries).subset he)

lemma AccelInv.writeImage (h : AccelInv crc32 s) (hfree : s.FreeSlot slot) (guid : Guid)
    (f : RecordFrame) : AccelInv crc32 (s.writeImage guid slot f) := by
  intro x image href himage
  by_cases hx : x = slot
  · subst hx
    obtain rfl : f = image := by
      simpa [AccelStore.writeImage] using himage
    have hprogress : (s.writeImage guid x f).progress x = 0 := update_self _ _ _
    exact {
      answers := fun head hhead => by
        have hnone : (s.writeImage guid x f).index.now (x, .head) = none := update_self _ _ _
        rw [hnone] at hhead
        cases hhead
      values := fun hp => by rw [hprogress] at hp; simp at hp
      tail := fun hp => by rw [hprogress] at hp; simp at hp }
  · have href' : s.Referenced x := by
      obtain ⟨m, hm, hmem⟩ := href
      rcases mem_cons.mp hm with rfl | hm
      · rcases mem_slots_insert hmem with hx' | hmem
        · exact absurd hx' hx
        · exact ⟨_, mem_cons_self, hmem⟩
      · exact ⟨m, mem_cons_of_mem _ hm, hmem⟩
    have himage' : s.images x = some image := by
      rw [← himage]
      exact (update_of_ne hx _ _).symm
    refine (h x image href' himage').congr (fun part => ?_) ?_ ?_
    · exact update_of_ne (fun heq => hx (congrArg Prod.fst heq)) _ _
    · exact update_of_ne hx _ _
    · exact update_of_ne hx _ _

lemma AreaOk.publishNext {image : RecordFrame} (h : AreaOk crc32 s slot image) :
    AreaOk crc32 (s.publishNext slot image) slot image := by
  unfold AccelStore.publishNext
  have hne : ((slot, IndexPart.head) : ℕ × IndexPart) ≠ (slot, .tail) := by simp
  split
  next hp =>
    -- the values: whatever index is there, it finds them now
    have hserves : SegmentServes crc32 image
        (packValues image.leaves ++ (s.segments.now slot).drop (packValues image.leaves).length) :=
      segmentServes_packValues image _
    have hseg : (s.segments.write slot (packValues image.leaves ++
        (s.segments.now slot).drop (packValues image.leaves).length)).now slot = _ :=
      update_self _ _ _
    refine ⟨?_, fun _ => ?_, fun h2 => ?_⟩
    · refine fun head hhead => (h.answers head hhead).imp_right fun hown =>
        ⟨hown.1, hown.2.imp id fun htail => ⟨htail.1, ?_⟩⟩
      show SegmentServes crc32 image ((s.segments.write slot _).now slot)
      rw [hseg]
      exact hserves
    · show packValues image.leaves <+: (s.segments.write slot _).now slot
      rw [hseg]
      exact prefix_append _ _
    · simp [hp] at h2
  next hp =>
    -- the second part of the index; the values are there
    have hvalues := h.values (.inl hp)
    obtain ⟨rest, hrest⟩ := hvalues
    refine ⟨?_, fun _ => ⟨rest, hrest⟩, fun _ => update_self _ _ _⟩
    have hhead : (s.index.write (slot, .tail) (some image)).now (slot, .head) =
        s.index.now (slot, .head) := update_of_ne hne _ _
    intro head hmem
    rw [hhead] at hmem
    refine (h.answers head hmem).imp_right fun hown => ⟨hown.1, .inr ⟨update_self _ _ _, ?_⟩⟩
    rw [← hrest]
    exact segmentServes_packValues image rest
  next hp =>
    -- the first part, with the stamp; everything else is there
    obtain ⟨rest, hrest⟩ := h.values (.inr hp)
    have htail : (s.index.write (slot, .head) (some image)).now (slot, .tail) = some image :=
      (update_of_ne hne.symm _ _).trans (h.tail hp)
    refine ⟨fun head hhead => .inr ⟨?_, .inr ⟨htail, ?_⟩⟩, fun h3 => ?_, fun h3 => ?_⟩
    · have hnew : (s.index.write (slot, .head) (some image)).now (slot, .head) = some image :=
        update_self _ _ _
      exact (Option.some.inj (hnew.symm.trans hhead)).symm
    · rw [← hrest]
      exact segmentServes_packValues image rest
    · simp [hp] at h3
    · simp [hp] at h3
  next => exact h

lemma publishNext_other {x : ℕ} (f : RecordFrame) (hx : x ≠ slot) :
    (∀ part, (s.publishNext slot f).index.now (x, part) = s.index.now (x, part)) ∧
      (s.publishNext slot f).segments.now x = s.segments.now x ∧
      (s.publishNext slot f).progress x = s.progress x := by
  have hpart : ∀ part part', ((x, part) : ℕ × IndexPart) ≠ (slot, part') := fun _ _ heq =>
    hx (congrArg Prod.fst heq)
  unfold AccelStore.publishNext
  split
  · exact ⟨fun _ => rfl, update_of_ne hx _ _, update_of_ne hx _ _⟩
  · exact ⟨fun part => update_of_ne (hpart part _) _ _, rfl, update_of_ne hx _ _⟩
  · exact ⟨fun part => update_of_ne (hpart part _) _ _, rfl, update_of_ne hx _ _⟩
  · exact ⟨fun _ => rfl, rfl, rfl⟩

lemma publishNext_frame (slot : ℕ) (f : RecordFrame) :
    (s.publishNext slot f).images = s.images ∧ (s.publishNext slot f).manifest = s.manifest ∧
      (s.publishNext slot f).survivors = s.survivors := by
  unfold AccelStore.publishNext
  split <;> exact ⟨rfl, rfl, rfl⟩

lemma AccelInv.publish (h : AccelInv crc32 s) {f : RecordFrame} (hf : s.images slot = some f) :
    AccelInv crc32 (s.publishNext slot f) := by
  obtain ⟨himages, hmanifest, hsurvivors⟩ := @publishNext_frame s slot f
  intro x image href himage
  rw [AccelStore.Referenced, hmanifest, hsurvivors] at href
  rw [himages] at himage
  have hold := h x image href himage
  by_cases hx : x = slot
  · subst hx
    cases hf.symm.trans himage
    exact hold.publishNext
  · obtain ⟨hindex, hsegment, hprogress⟩ := @publishNext_other s slot x f hx
    exact hold.congr hindex hsegment hprogress

lemma AccelInv.crash (h : AccelInv crc32 s) {m : Entries} (hm : m ∈ s.survivors)
    {pickIndex : ℕ × IndexPart → ℕ} {pickSegment : ℕ → ℕ}
    (hguard : ∀ slot ∈ m.entries.map Sigma.snd, ∀ image ∈ s.images slot,
      Distinguished crc32 (s.crash m pickIndex pickSegment) slot image ∨
        pickIndex (slot, .head) = 0 ∧ pickIndex (slot, .tail) = 0 ∧ pickSegment slot = 0) :
    AccelInv crc32 (s.crash m pickIndex pickSegment) := by
  intro slot image href himage
  have hslot : slot ∈ m.entries.map Sigma.snd := by
    obtain ⟨m', hm', hmem⟩ := href
    rcases mem_cons.mp hm' with rfl | hm'
    · exact hmem
    · obtain rfl : m' = m := mem_singleton.mp hm'
      exact hmem
  refine ⟨?_, fun hp => absurd hp nofun, fun hp => absurd hp nofun⟩
  rcases hguard slot hslot image himage with hdist | ⟨hhead, htail, hseg⟩
  · refine fun head hmem => (hdist head hmem).imp_right fun ⟨hown, hrest, hvalues⟩ =>
      ⟨hown, hrest.imp id fun hrest => ⟨hrest, ?_⟩⟩
    rcases hvalues with ⟨hzero, hzeros⟩ | ⟨rest, hrest⟩
    · exact segmentServes_zeros hzeros hzero
    · rw [← hrest]
      exact segmentServes_packValues image rest
  · have hold := (h slot image ⟨m, mem_cons_of_mem _ hm, hslot⟩ himage).answers
    rw [← CrashFile.crash_now_newest s.index hhead, ← CrashFile.crash_now_newest s.index htail,
      ← CrashFile.crash_now_newest s.segments hseg] at hold
    exact hold

end Steps

/-! ## Runs -/

section Runs

variable {crc32 : List Byte → ℕ}

lemma accelInv_step {s s' : AccelStore} {a : AccelAction} (h : AccelInv crc32 s)
    (hguard : CrashDistinguished crc32 s a) (hstep : accelStep s a = some s') :
    AccelInv crc32 s' := by
  cases a with
  | rebuild guid f =>
    cases hstep
    exact h.setFrame guid f
  | change guid u =>
    obtain ⟨f, -, rfl⟩ := map_eq_some_iff.mp hstep
    exact h.setFrame guid f
  | writeImage guid slot =>
    simp only [accelStep, ite_none_right_eq_some] at hstep
    obtain ⟨hfree, hmap⟩ := hstep
    obtain ⟨f, -, rfl⟩ := map_eq_some_iff.mp hmap
    exact h.writeImage hfree guid f
  | publish guid =>
    simp only [accelStep] at hstep
    cases hslot : s.manifest.lookup guid with
    | none => simp [hslot] at hstep
    | some slot =>
      simp only [hslot] at hstep
      obtain ⟨f, hf, rfl⟩ := map_eq_some_iff.mp hstep
      exact h.publish hf
  | appendManifest =>
    cases hstep
    intro slot image href himage
    have href' : s.Referenced slot := by
      obtain ⟨m, hm, hmem⟩ := href
      rcases mem_cons.mp hm with rfl | hm
      · exact ⟨_, mem_cons_self, hmem⟩
      · exact ⟨m, hm, hmem⟩
    exact (h slot image href' himage).congr (fun _ => rfl) rfl rfl
  | syncManifest =>
    cases hstep
    intro slot image href himage
    have href' : s.Referenced slot := by
      obtain ⟨m, hm, hmem⟩ := href
      have hm' : m = s.manifest := by simpa using hm
      exact ⟨_, mem_cons_self, hm' ▸ hmem⟩
    exact (h slot image href' himage).congr (fun _ => rfl) rfl rfl
  | crash survivor pickIndex pickSegment =>
    obtain ⟨m, hm, rfl⟩ := map_eq_some_iff.mp hstep
    exact h.crash (mem_of_getElem? hm) (hguard m hm)

/-- A blob with one record, under a value of one byte. -/
def oneLeafFrame (value : Byte) (seq : ℕ) : RecordFrame where
  header := ⟨1, 1, 4096, 0, 0, 0, 0, 1, ⟨List.replicate 16 0, rfl⟩, 0, 0, 0, 0⟩
  leaves := [⟨[1], [value], seq, false⟩]
  crossings := []

def oneGuid : Guid := ⟨List.replicate 16 0, rfl⟩

/-- The sum of the bytes, for a checksum. -/
def byteSum (bytes : List Byte) : ℕ := (bytes.map UInt8.toNat).sum

/-- A checkpoint of the blob to a slot, up to the synced manifest. -/
def checkpointTo (slot : ℕ) : List AccelAction :=
  [.writeImage oneGuid slot, .publish oneGuid, .publish oneGuid, .publish oneGuid, .appendManifest,
    .syncManifest]

/-- Two checkpoints to new slots; a crash then loses the value segment of the second. -/
def crashAfterPublication : List AccelAction :=
  [.rebuild oneGuid (oneLeafFrame 7 1)] ++ checkpointTo 0 ++
    [.change oneGuid (.update [1] [8] 2)] ++ checkpointTo 1 ++ [.crash 0 (fun _ => 0) (fun _ => 1)]

/-- Three checkpoints of the blob, a longer value written in between; the third goes to the slot of
the first, and a crash loses the clearing of its index area. -/
def staleDetected : List AccelAction :=
  [.rebuild oneGuid (oneLeafFrame 7 1)] ++ checkpointTo 0 ++
    [.change oneGuid (.update [1] (List.replicate 7 8) 2)] ++ checkpointTo 1 ++
    [.change oneGuid (.update [1] (List.replicate 15 9) 3), .writeImage oneGuid 0, .appendManifest,
      .syncManifest, .crash 0 (fun cell => if cell = (0, .head) then 1 else 0) (fun _ => 0)]

/-- Three checkpoints of the blob, its value overwritten in between; the third goes to the slot
of the first, and a crash loses only the clearing of its index area. -/
def clearLost : List AccelAction :=
  [.rebuild oneGuid (oneLeafFrame 7 1)] ++ checkpointTo 0 ++
    [.change oneGuid (.update [1] [8] 2)] ++ checkpointTo 1 ++
      [.change oneGuid (.update [1] [9] 3), .writeImage oneGuid 0, .appendManifest,
      .syncManifest, .crash 0 (fun cell => if cell = (0, .head) then 1 else 0) (fun _ => 0)]

end Runs

end Store
end Holt
