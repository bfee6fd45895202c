import Holt.Store.ManifestLog

/-!
# Integrity records

`FileBlobStore` keeps, in a second file and at the same slot number as the blob, a record with
a checksum for each page of the blob.  The record names the blob and the slot and says how
many pages it covers; the record itself has a checksum too.  `read_blob` reads the pages that
are covered, takes zeros for the rest, and returns them only if the record and every covered
page pass.

The checksum is that of the `crc32fast` crate and a parameter here.
-/

namespace Holt
namespace Store

open List LittleEndian

/-- `PAGE_COUNT`. -/
def pageCount : ℕ := 128

abbrev Page := {bytes : List Byte // bytes.length = 4096}

/-- The frame of a blob. -/
abbrev Image := Fin pageCount → Page

def zeroPage : Page := ⟨List.replicate 4096 0, List.length_replicate⟩

inductive ReadError
  | notFound
  | missingRecord
  | record
  | shortRead
  | page
deriving DecidableEq

/-- `integrity::MAGIC`, the bytes of `HOLTCKS1`. -/
def recordMagic : List Byte := [72, 79, 76, 84, 67, 75, 83, 49]

def pageChecksumsOffset : ℕ := 32

def coveredPagesOffset : ℕ := 544

def recordChecksumOffset : ℕ := 572

section Records

variable (crc : List Byte → UInt32)

/-- The checksum field of a page. -/
def checksumField (image : Image) (covered : ℕ) (page : Fin pageCount) : List Byte :=
  if page.val < covered then bytes 4 (crc (image page).val).toNat else List.replicate 4 0

/-- A record without its own checksum. -/
def recordBody (guid : Guid) (slot : ℕ) (image : Image) (covered : ℕ) : List Byte :=
  recordMagic ++ guid.val ++ bytes 8 slot ++
    (List.finRange pageCount).flatMap (checksumField crc image covered) ++
    bytes 4 covered ++ List.replicate 24 0

/-- `integrity::encode_prefix`. -/
def encodePrefix (guid : Guid) (slot : ℕ) (image : Image) (covered : ℕ) : List Byte :=
  recordBody crc guid slot image covered ++
    bytes 4 (crc (recordBody crc guid slot image covered)).toNat

/-- `integrity::encode`. -/
def encodeRecord (guid : Guid) (slot : ℕ) (image : Image) : List Byte :=
  encodePrefix crc guid slot image pageCount

def coveredPages (record : List Byte) : ℕ := value ((record.drop coveredPagesOffset).take 4)

/-- `validate_record`. -/
def validateRecord (record : List Byte) (guid : Guid) (slot : ℕ) : Bool :=
  record.take 8 = recordMagic ∧ (record.drop 8).take 16 = guid.val ∧
    (record.drop 24).take 8 = bytes 8 slot ∧
    1 ≤ coveredPages record ∧ coveredPages record ≤ pageCount ∧
    value (record.drop recordChecksumOffset) = (crc (record.take recordChecksumOffset)).toNat

/-- One page of `verify_pages`. -/
def verifyPage (record : List Byte) (image : Image) (page : Fin pageCount) : Bool :=
  coveredPages record ≤ page.val ∨
    value ((record.drop (pageChecksumsOffset + 4 * page.val)).take 4) =
      (crc (image page).val).toNat

/-- The frame `read_blob` fills in from the pages of a slot. -/
def coveredFrame (covered : ℕ) (pages : Fin pageCount → Option Page) : Image :=
  fun page => if page.val < covered then (pages page).getD zeroPage else zeroPage

/-- `read_blob`, from where the record and the pages have been found. -/
def readFrame (record : List Byte) (guid : Guid) (slot : ℕ)
    (pages : Fin pageCount → Option Page) : Except ReadError Image :=
  if validateRecord crc record guid slot then
    if ∀ page : Fin pageCount, page.val < coveredPages record → (pages page).isSome then
      let frame := coveredFrame (coveredPages record) pages
      if ∀ page, verifyPage crc record frame page then .ok frame else .error .page
    else .error .shortRead
  else .error .record

variable {crc}

@[simp] lemma length_checksumField (image : Image) (covered : ℕ) (page : Fin pageCount) :
    (checksumField crc image covered page).length = 4 := by
  unfold checksumField
  split_ifs with h
  · exact length_bytes _ _
  · exact length_replicate

lemma length_checksums (image : Image) (covered : ℕ) :
    ((List.finRange pageCount).flatMap (checksumField crc image covered)).length = 512 := by
  rw [length_flatMap_of_width (fun page => length_checksumField image covered page),
    length_finRange, pageCount]

lemma length_recordBody (guid : Guid) (slot : ℕ) (image : Image) (covered : ℕ) :
    (recordBody crc guid slot image covered).length = recordChecksumOffset := by
  simp only [recordBody, length_append, length_checksums, guid.2, length_bytes,
    length_replicate, recordMagic, length_cons, length_nil, recordChecksumOffset]

section Fields

variable (guid : Guid) (slot : ℕ) (image : Image) (covered : ℕ)

lemma take_magic : (encodePrefix crc guid slot image covered).take 8 = recordMagic := by
  simp only [encodePrefix, recordBody, append_assoc]
  exact take_left' rfl

lemma drop_magic : (encodePrefix crc guid slot image covered).drop 8 =
    guid.val ++ (bytes 8 slot ++
      ((List.finRange pageCount).flatMap (checksumField crc image covered) ++
        (bytes 4 covered ++ (List.replicate 24 0 ++
          bytes 4 (crc (recordBody crc guid slot image covered)).toNat)))) := by
  simp only [encodePrefix, recordBody, append_assoc]
  exact drop_left' rfl

lemma take_guid : ((encodePrefix crc guid slot image covered).drop 8).take 16 = guid.val := by
  rw [drop_magic]
  exact take_left' guid.2

lemma drop_guid : (encodePrefix crc guid slot image covered).drop 24 =
    bytes 8 slot ++ ((List.finRange pageCount).flatMap (checksumField crc image covered) ++
      (bytes 4 covered ++ (List.replicate 24 0 ++
        bytes 4 (crc (recordBody crc guid slot image covered)).toNat))) := by
  rw [← drop_drop (i := 16) (j := 8), drop_magic]
  exact drop_left' guid.2

lemma take_slot : ((encodePrefix crc guid slot image covered).drop 24).take 8 = bytes 8 slot := by
  rw [drop_guid]
  exact take_left' (length_bytes _ _)

lemma drop_slot : (encodePrefix crc guid slot image covered).drop 32 =
    (List.finRange pageCount).flatMap (checksumField crc image covered) ++
      (bytes 4 covered ++ (List.replicate 24 0 ++
        bytes 4 (crc (recordBody crc guid slot image covered)).toNat)) := by
  rw [← drop_drop (i := 8) (j := 24), drop_guid]
  exact drop_left' (length_bytes _ _)

lemma take_checksum (page : Fin pageCount) :
    ((encodePrefix crc guid slot image covered).drop (pageChecksumsOffset + 4 * page.val)).take 4 =
      checksumField crc image covered page := by
  have hin : 4 * page.val + 4 ≤
      ((List.finRange pageCount).flatMap (checksumField crc image covered)).length := by
    have hlt : page.val < 128 := page.2
    rw [length_checksums]
    omega
  have hindex : page.val < (List.finRange pageCount).length := by
    rw [length_finRange]
    exact page.2
  rw [pageChecksumsOffset, ← drop_drop, drop_slot,
    drop_append_of_le_length (by omega),
    take_append_of_le_length (by rw [length_drop]; omega),
    take_drop_flatMap (length_checksumField image covered) hindex]
  simp

lemma coveredPages_encode (h : covered ≤ pageCount) :
    coveredPages (encodePrefix crc guid slot image covered) = covered := by
  have hfield : ((encodePrefix crc guid slot image covered).drop coveredPagesOffset).take 4 =
      bytes 4 covered := by
    rw [coveredPagesOffset, ← drop_drop (i := 512) (j := 32), drop_slot,
      drop_left' (length_checksums _ _)]
    exact take_left' (length_bytes _ _)
  rw [coveredPages, hfield]
  exact value_bytes_of_lt (lt_of_le_of_lt h (by rw [pageCount]; norm_num))

/-- A record passes for the blob and the slot it was made for. -/
lemma validateRecord_encode (hpos : 1 ≤ covered) (h : covered ≤ pageCount) :
    validateRecord crc (encodePrefix crc guid slot image covered) guid slot = true := by
  have hcrc : (encodePrefix crc guid slot image covered).drop recordChecksumOffset =
      bytes 4 (crc (recordBody crc guid slot image covered)).toNat :=
    drop_left' (length_recordBody _ _ _ _)
  have hbody : (encodePrefix crc guid slot image covered).take recordChecksumOffset =
      recordBody crc guid slot image covered := take_left' (length_recordBody _ _ _ _)
  have hsum : value (bytes 4 (crc (recordBody crc guid slot image covered)).toNat) =
      (crc (recordBody crc guid slot image covered)).toNat :=
    value_bytes_of_lt (lt_of_lt_of_eq (UInt32.toNat_lt _) (by norm_num))
  simp only [validateRecord, take_magic, take_guid, take_slot, coveredPages_encode _ _ _ _ h, hcrc,
    hbody, hsum, hpos, h, and_self, decide_true]

end Fields

/-- What was written into a slot is read back from it. -/
theorem readFrame_encode (guid : Guid) (slot : ℕ) (image : Image) :
    readFrame crc (encodeRecord crc guid slot image) guid slot (fun page => some (image page)) =
      .ok image := by
  have hcovered : coveredPages (encodeRecord crc guid slot image) = pageCount :=
    coveredPages_encode guid slot image pageCount (le_refl _)
  have hframe : coveredFrame pageCount (fun page => some (image page)) = image := by
    funext page
    rw [coveredFrame, if_pos page.2, Option.getD_some]
  have hpage : ∀ page, verifyPage crc (encodeRecord crc guid slot image) image page = true := by
    intro page
    have hfield : checksumField crc image pageCount page = bytes 4 (crc (image page).val).toNat :=
      if_pos page.2
    have hsum : value (bytes 4 (crc (image page).val).toNat) = (crc (image page).val).toNat :=
      value_bytes_of_lt (lt_of_lt_of_eq (UInt32.toNat_lt _) (by norm_num))
    rw [verifyPage, decide_eq_true_eq, encodeRecord, take_checksum, hfield, hsum]
    exact .inr rfl
  have hvalid : validateRecord crc (encodeRecord crc guid slot image) guid slot = true :=
    validateRecord_encode guid slot image pageCount (by decide) (le_refl _)
  have hsome : ∀ page : Fin pageCount,
      page.val < coveredPages (encodeRecord crc guid slot image) →
        (some (image page)).isSome = true := fun _ _ => rfl
  rw [readFrame, if_pos hvalid, if_pos hsome, hcovered, hframe]
  exact if_pos hpage

end Records

end Store
end Holt
