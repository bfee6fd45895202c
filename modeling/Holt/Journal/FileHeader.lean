import Holt.Journal.Codec
import Holt.Lib.Layout

/-!
# The header of a WAL file

A file of the previous format has a header of 32 bytes; the current format has a page that
also holds two slots for the checkpoint anchor of an attached journal.  A slot has a
generation and a CRC of its own, and the valid slot with the highest generation counts.

* `decodeFileHeader_append`: the header does not depend on what follows it.
* `decodeFileHeader_page`: the header of a page is what its two slots say.
* `decodeAnchorSlot_encode`: a slot is read back as it was written.
-/

namespace Holt
namespace Journal

open List Layout LittleEndian

/-- `buf[start..start + len]`. -/
def slice (buf : List Byte) (start len : ℕ) : List Byte := (buf.drop start).take len

lemma slice_append {buf : List Byte} {start len : ℕ} (h : start + len ≤ buf.length)
    (rest : List Byte) : slice (buf ++ rest) start len = slice buf start len := by
  rw [slice, slice, drop_append_of_le_length (by omega),
    take_append_of_le_length (by rw [length_drop]; omega)]

variable {fields : List (List Byte)} {i start : ℕ}

/-- The fields of a structure laid end to end are read at their offsets. -/
lemma slice_field {field : List Byte} (hi : fields[i]? = some field) {len : ℕ}
    (hstart : offset fields i = start) (hlen : field.length = len) :
    slice fields.flatten start len = field := by
  obtain ⟨hlt, rfl⟩ := List.getElem?_eq_some_iff.mp hi
  have hread := slice_flatten_take fields hlt hlt
  rw [take_length, hstart, hlen] at hread
  exact hread

lemma value_field {w n : ℕ} (hi : fields[i]? = some (bytes w n)) (hstart : offset fields i = start)
    (hn : n < 256 ^ w) : value (slice fields.flatten start w) = n := by
  rw [slice_field hi hstart (length_bytes w n), value_bytes_of_lt hn]

lemma u64_field {n : UInt64} (hi : fields[i]? = some (bytes 8 n.toNat))
    (hstart : offset fields i = start) :
    UInt64.ofNat (value (slice fields.flatten start 8)) = n := by
  rw [value_field hi hstart (lt_of_lt_of_eq n.toNat_lt (by norm_num)), UInt64.ofNat_toNat]

/-! ## Anchor slots -/

/-- `ANCHOR_SLOT_MAGIC`. -/
def anchorSlotMagic : ℕ := 0x52484341

def anchorSlotVersion : ℕ := 1

def anchorSlotSize : ℕ := 128

/-- `ANCHOR_SLOT_CHECKSUM_OFFSET`. -/
def anchorSlotChecksumOffset : ℕ := 64

/-- `ANCHOR_SLOT_FLAG_INITIALIZED`. -/
def anchorSlotFlagInitialized : ℕ := 1

/-- The part of a slot that its CRC covers. -/
def anchorSlotCovered (anchor : JournalAnchor) (generation : UInt64) : List Byte :=
  bytes 4 anchorSlotMagic ++ (bytes 4 anchorSlotVersion ++ (bytes 8 generation.toNat ++
    (bytes 8 anchorSlotFlagInitialized ++ (bytes 8 anchor.sequence.toNat ++ anchor.digest.val))))

/-- `encode_anchor_slot`. -/
def encodeAnchorSlot (crc : List Byte → UInt32) (anchor : JournalAnchor) (generation : UInt64) :
    List Byte :=
  anchorSlotCovered anchor generation ++
    (bytes 4 (crc (anchorSlotCovered anchor generation)).toNat ++ List.replicate 60 0)

/-- `decode_anchor_slot`. -/
def decodeAnchorSlot (crc : List Byte → UInt32) (slot : List Byte) :
    Option (JournalAnchor × UInt64) :=
  if slot.length ≠ anchorSlotSize then none
  else
    let generation := UInt64.ofNat (value (slice slot 8 8))
    if value (slice slot 0 4) ≠ anchorSlotMagic ∨ value (slice slot 4 4) ≠ anchorSlotVersion ∨
        generation = 0 ∨ value (slice slot 16 8) ≠ anchorSlotFlagInitialized then none
    else if (crc (slot.take anchorSlotChecksumOffset)).toNat ≠
        value (slice slot anchorSlotChecksumOffset 4) then none
    else if h : (slice slot 32 32).length = 32 then
      some (⟨UInt64.ofNat (value (slice slot 24 8)), ⟨slice slot 32 32, h⟩⟩, generation)
    else none

/-- `decode_checkpoint_anchor`, of the contents of the two slots. -/
def decodeCheckpointAnchor (crc : List Byte → UInt32) (slotA slotB : List Byte) :
    Except SanityContext (Option JournalAnchor × UInt64) :=
  match decodeAnchorSlot crc slotA, decodeAnchorSlot crc slotB with
  | none, none =>
    -- one slot that is not zero is a torn first initialisation
    if slotA.any (· ≠ 0) ∧ slotB.any (· ≠ 0) then .error .anchorSlotsCorrupt else .ok (none, 0)
  | some a, none => .ok (some a.1, a.2)
  | none, some b => .ok (some b.1, b.2)
  | some a, some b =>
    if a.2 = b.2 ∧ a.1 ≠ b.1 then .error .anchorGenerationsConflict
    else if a.2 ≤ b.2 then .ok (some b.1, b.2) else .ok (some a.1, a.2)

section SlotFields

variable (crc : List Byte → UInt32) (anchor : JournalAnchor) (generation : UInt64)

/-- The fields of a slot. -/
def anchorSlotFields : List (List Byte) :=
  [bytes 4 anchorSlotMagic, bytes 4 anchorSlotVersion, bytes 8 generation.toNat,
    bytes 8 anchorSlotFlagInitialized, bytes 8 anchor.sequence.toNat, anchor.digest.val,
    bytes 4 (crc (anchorSlotCovered anchor generation)).toNat, List.replicate 60 0]

lemma encodeAnchorSlot_eq : encodeAnchorSlot crc anchor generation =
    (anchorSlotFields crc anchor generation).flatten := by
  simp [encodeAnchorSlot, anchorSlotCovered, anchorSlotFields]

lemma length_anchorSlotCovered :
    (anchorSlotCovered anchor generation).length = anchorSlotChecksumOffset := by
  simp [anchorSlotCovered, anchorSlotChecksumOffset, anchor.digest.2]

lemma length_encodeAnchorSlot :
    (encodeAnchorSlot crc anchor generation).length = anchorSlotSize := by
  simp [encodeAnchorSlot, length_anchorSlotCovered, anchorSlotChecksumOffset, anchorSlotSize]

lemma offset_anchorSlotFields :
    [0, 1, 2, 3, 4, 5, 6].map (offset (anchorSlotFields crc anchor generation)) =
      [0, 4, 8, 16, 24, 32, anchorSlotChecksumOffset] := by
  simp [anchorSlotFields, offset, anchor.digest.2, anchorSlotChecksumOffset]

lemma decodeAnchorSlot_encode {generation : UInt64} (hne : generation ≠ 0) :
    decodeAnchorSlot crc (encodeAnchorSlot crc anchor generation) = some (anchor, generation) := by
  have hoff := offset_anchorSlotFields crc anchor generation
  simp only [map_cons, map_nil, List.cons.injEq, and_true] at hoff
  obtain ⟨h0, h1, h2, h3, h4, h5, h6⟩ := hoff
  have hcovered : (encodeAnchorSlot crc anchor generation).take anchorSlotChecksumOffset =
      anchorSlotCovered anchor generation :=
    take_left' (length_anchorSlotCovered anchor generation)
  have hlen := length_encodeAnchorSlot crc anchor generation
  have hfields := encodeAnchorSlot_eq crc anchor generation
  generalize encodeAnchorSlot crc anchor generation = slot at *
  have hmagic : value (slice slot 0 4) = anchorSlotMagic := by
    rw [hfields, value_field rfl h0 (by decide)]
  have hversion : value (slice slot 4 4) = anchorSlotVersion := by
    rw [hfields, value_field rfl h1 (by decide)]
  have hgeneration : UInt64.ofNat (value (slice slot 8 8)) = generation := by
    rw [hfields, u64_field rfl h2]
  have hflags : value (slice slot 16 8) = anchorSlotFlagInitialized := by
    rw [hfields, value_field rfl h3 (by decide)]
  have hsequence : UInt64.ofNat (value (slice slot 24 8)) = anchor.sequence := by
    rw [hfields, u64_field rfl h4]
  have hdigest : slice slot 32 32 = anchor.digest.val := by
    rw [hfields, slice_field rfl h5 anchor.digest.2]
  have hcrc : value (slice slot anchorSlotChecksumOffset 4) =
      (crc (anchorSlotCovered anchor generation)).toNat := by
    rw [hfields, value_field rfl h6 (lt_of_lt_of_eq (crc _).toNat_lt (by norm_num))]
  simp only [decodeAnchorSlot, hlen, ne_eq, not_true_eq_false, if_false, hmagic, hversion,
    hgeneration, hflags, hsequence, hdigest, hcrc, hcovered, or_self, hne, anchor.digest.2, dif_pos]

end SlotFields

/-! ## Headers -/

/-- `LEGACY_FORMAT_VERSION` and `FORMAT_VERSION`. -/
inductive FormatVersion
  | legacy
  | current
deriving DecidableEq

def FormatVersion.number : FormatVersion → ℕ
  | legacy => 3
  | current => 4

/-- `LEGACY_FILE_HEADER_SIZE` and `FILE_HEADER_SIZE`. -/
def FormatVersion.headerSize : FormatVersion → ℕ
  | legacy => 32
  | current => 4096

structure FileHeader where
  version : FormatVersion
  treeId : UInt64
  createdAt : UInt64
  checkpointAnchor : Option JournalAnchor
  anchorGeneration : UInt64
deriving DecidableEq

/-- `record_offset`. -/
def FileHeader.recordOffset (h : FileHeader) : ℕ := h.version.headerSize

/-- `FILE_MAGIC`. -/
def fileMagic : ℕ := 0x414C4157

/-- `decode_file_header`. -/
def decodeFileHeader (crc : List Byte → UInt32) (buf : List Byte) :
    Except SanityContext FileHeader :=
  if buf.length < FormatVersion.legacy.headerSize then .error .fileHeaderTruncated
  else if value (slice buf 0 4) ≠ fileMagic then .error .fileMagicMismatch
  else
    let treeId := UInt64.ofNat (value (slice buf 8 8))
    let createdAt := UInt64.ofNat (value (slice buf 16 8))
    if value (slice buf 4 4) = FormatVersion.legacy.number then
      .ok ⟨.legacy, treeId, createdAt, none, 0⟩
    else if value (slice buf 4 4) = FormatVersion.current.number then
      if buf.length < FormatVersion.current.headerSize then .error .fileHeaderTruncated
      else if value (slice buf 24 8) ≠ FormatVersion.current.headerSize then
        .error .fileHeaderSize
      else
        match decodeCheckpointAnchor crc (slice buf 64 anchorSlotSize)
            (slice buf (64 + anchorSlotSize) anchorSlotSize) with
        | .error e => .error e
        | .ok (anchor, generation) => .ok ⟨.current, treeId, createdAt, anchor, generation⟩
    else .error .fileVersion

section Headers

variable {crc : List Byte → UInt32} {buf : List Byte} {header : FileHeader}

lemma recordOffset_le (h : decodeFileHeader crc buf = .ok header) :
    header.recordOffset ≤ buf.length := by
  unfold decodeFileHeader at h
  split_ifs at h with hshort hmagic hlegacy hcurrent hpage hsize
  · cases h
    exact not_lt.mp hshort
  · split at h
    · cases h
    · cases h
      exact not_lt.mp hpage

lemma decodeFileHeader_append (h : decodeFileHeader crc buf = .ok header) (rest : List Byte) :
    decodeFileHeader crc (buf ++ rest) = .ok header := by
  have hoffset := recordOffset_le h
  unfold decodeFileHeader at h
  have hshort : ¬ buf.length < FormatVersion.legacy.headerSize := by
    intro hlt
    rw [if_pos hlt] at h
    cases h
  have hlen : 32 ≤ buf.length := not_lt.mp hshort
  have hlong : ¬ (buf ++ rest).length < FormatVersion.legacy.headerSize := by
    rw [length_append]
    omega
  rw [if_neg hshort] at h
  unfold decodeFileHeader
  rw [if_neg hlong]
  simp only [slice_append (show 0 + 4 ≤ buf.length by omega) rest,
    slice_append (show 4 + 4 ≤ buf.length by omega) rest,
    slice_append (show 8 + 8 ≤ buf.length by omega) rest,
    slice_append (show 16 + 8 ≤ buf.length by omega) rest,
    slice_append (show 24 + 8 ≤ buf.length by omega) rest] at h ⊢
  split_ifs at h ⊢ with hmagic hlegacy hcurrent hmore hpage
  · exact h
  · rw [length_append] at hmore
    exact hpage (by omega)
  · -- the page is there, and both slots lie in it
    have hfull : 4096 ≤ buf.length :=
      not_lt.mp ‹¬ buf.length < FormatVersion.current.headerSize›
    rw [slice_append (by simp only [anchorSlotSize]; omega),
      slice_append (by simp only [anchorSlotSize]; omega)]
    exact h

/-- The zeros behind the slots. -/
def headerPadding : List Byte := List.replicate 3776 0

lemma length_headerPadding : headerPadding.length = 3776 := length_replicate

/-- The page of the current format. -/
def headerPage (treeId createdAt : UInt64) (slotA slotB : List Byte) : List Byte :=
  bytes 4 fileMagic ++ (bytes 4 FormatVersion.current.number ++ (bytes 8 treeId.toNat ++
    (bytes 8 createdAt.toNat ++ (bytes 8 FormatVersion.current.headerSize ++
      (List.replicate 32 0 ++ (slotA ++ (slotB ++ headerPadding)))))))

lemma length_headerPage (treeId createdAt : UInt64) {slotA slotB : List Byte}
    (hA : slotA.length = anchorSlotSize) (hB : slotB.length = anchorSlotSize) :
    (headerPage treeId createdAt slotA slotB).length = FormatVersion.current.headerSize := by
  simp only [headerPage, length_append, length_bytes, length_replicate, hA, hB,
    anchorSlotSize, length_headerPadding, FormatVersion.headerSize]

variable (crc) in
lemma decodeFileHeader_page (treeId createdAt : UInt64) {slotA slotB : List Byte}
    (hA : slotA.length = anchorSlotSize) (hB : slotB.length = anchorSlotSize)
    (rest : List Byte) :
    decodeFileHeader crc (headerPage treeId createdAt slotA slotB ++ rest) =
      (decodeCheckpointAnchor crc slotA slotB).map
        (fun a => ⟨.current, treeId, createdAt, a.1, a.2⟩) := by
  have hpage : headerPage treeId createdAt slotA slotB ++ rest =
      [bytes 4 fileMagic, bytes 4 FormatVersion.current.number, bytes 8 treeId.toNat,
        bytes 8 createdAt.toNat, bytes 8 FormatVersion.current.headerSize, List.replicate 32 0,
        slotA, slotB, headerPadding, rest].flatten := by
    simp [headerPage]
  have hlen : (headerPage treeId createdAt slotA slotB ++ rest).length = 4096 + rest.length := by
    rw [length_append, length_headerPage treeId createdAt hA hB, FormatVersion.headerSize]
  generalize headerPage treeId createdAt slotA slotB ++ rest = buf at *
  have hmagic : value (slice buf 0 4) = fileMagic := by
    rw [hpage, value_field (i := 0) rfl (offset_zero _) (by decide)]
  have hversion : value (slice buf 4 4) = FormatVersion.current.number := by
    rw [hpage, value_field (i := 1) rfl (by simp [offset]) (by decide)]
  have htree : UInt64.ofNat (value (slice buf 8 8)) = treeId := by
    rw [hpage, u64_field (i := 2) rfl (by simp [offset])]
  have hcreated : UInt64.ofNat (value (slice buf 16 8)) = createdAt := by
    rw [hpage, u64_field (i := 3) rfl (by simp [offset])]
  have hsize : value (slice buf 24 8) = FormatVersion.current.headerSize := by
    rw [hpage, value_field (i := 4) rfl (by simp [offset]) (by decide)]
  have hslotA : slice buf 64 anchorSlotSize = slotA := by
    rw [hpage, slice_field (i := 6) rfl (by simp [offset]) hA]
  have hslotB : slice buf (64 + anchorSlotSize) anchorSlotSize = slotB := by
    rw [hpage, slice_field (i := 7) rfl (by simp [offset, hA, anchorSlotSize]) hB]
  have hshort : ¬ 4096 + rest.length < FormatVersion.legacy.headerSize := by
    simp only [FormatVersion.headerSize]
    omega
  have hfull : ¬ 4096 + rest.length < FormatVersion.current.headerSize := by
    simp only [FormatVersion.headerSize]
    omega
  have hother : FormatVersion.current.number ≠ FormatVersion.legacy.number := by decide
  simp only [decodeFileHeader, hlen, if_neg hshort, hmagic, hversion, if_neg hother, if_neg hfull,
    htree, hcreated, hsize, hslotA, hslotB, ne_eq, not_true_eq_false, if_false, if_true]
  cases decodeCheckpointAnchor crc slotA slotB with
  | error e => rfl
  | ok a => rfl

end Headers

end Journal
end Holt
