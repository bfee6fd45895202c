import Holt.Lib.Transition
import Holt.Store.ManifestLog
import Holt.Tree.VersionedMap

/-!
# The records of a frame and the index built from them

Point reads of a cold blob go through a read index (`store/read_index/index.rs`): a list of the
frame's live records, small values inline and larger ones in a value segment, and of its
crossings to child blobs.  An index is trusted if its stamp, a copy of the counters in the
frame header, is that of the frame.

Here a frame is its header and its records and crossings, without the nodes that lead to them.
An update of a record follows `insert_into_leaf` and `erase_at_leaf` with the header counters
they touch; `insert` of a new key takes the header from its caller, since the nodes a new key
brings along are not modelled.  The slots are never given back and a tombstone only goes when its
leaf is overwritten in place, so without that the stamp changes for good (`header_ne_of_run`).  The
Bloom filter and the bucket hashes of the index only shorten the search, and the segment is as
large as a frame, so every value fits.
-/

namespace Holt
namespace Store

open List

/-- `ReadIndexStamp`. -/
structure ReadIndexStamp where
  rootSlot : ℕ
  numSlots : ℕ
  spaceUsed : ℕ
  compactTimes : ℕ
  deadBytes : ℕ
  gapSpace : ℕ
  tombstoneLeafCnt : ℕ
  createdEpoch : ℕ
  blobGuid : Guid
  routingOff : ℕ
  routingLen : ℕ
  leafRegionStart : ℕ
  routingUnfit : ℕ
deriving DecidableEq

/-- A leaf; the key is without its terminator. -/
structure FrameLeaf where
  key : Key
  value : Value
  seq : ℕ
  tombstone : Bool
deriving DecidableEq

/-- A frame: the header fields the stamp copies, the leaves and the child edges, each with its
path from the frame's root. -/
structure RecordFrame where
  header : ReadIndexStamp
  leaves : List FrameLeaf
  crossings : List (Key × Guid)
deriving DecidableEq

/-- `leaf_body_size`: header, key, terminator and value, rounded up to eight. -/
def leafBodySize (key : Key) (value : Value) : ℕ :=
  (16 + (key.length + 1) + value.length + 7) / 8 * 8

/-! ## Updates -/

/-- `alloc_leaf` on the header: it also takes the frame off the routed layout. -/
def ReadIndexStamp.allocLeaf (h : ReadIndexStamp) (size : ℕ) : ReadIndexStamp :=
  { h with
    numSlots := h.numSlots + 1
    spaceUsed := h.spaceUsed + size
    gapSpace := h.gapSpace + size
    routingLen := 0 }

/-- `note_abandoned` on the header. -/
def ReadIndexStamp.noteAbandoned (h : ReadIndexStamp) (size : ℕ) : ReadIndexStamp :=
  { h with deadBytes := h.deadBytes + size }

/-- A tombstoned leaf comes back to life. -/
def ReadIndexStamp.resurrect (h : ReadIndexStamp) (tombstone : Bool) : ReadIndexStamp :=
  if tombstone then { h with tombstoneLeafCnt := h.tombstoneLeafCnt - 1 } else h

namespace RecordFrame

/-- The leaf of a key, live or not. -/
def leaf (f : RecordFrame) (key : Key) : Option FrameLeaf := f.leaves.find? (fun l => l.key = key)

/-- Replace the leaf of a key. -/
def setLeaf (f : RecordFrame) (l : FrameLeaf) : List FrameLeaf :=
  f.leaves.map (fun x => if x.key = l.key then l else x)

/-- The same-key branch of `insert_into_leaf`: in place if the new body fits the old one, which
leaves the header alone unless the leaf was tombstoned; else a fresh leaf. -/
def update (f : RecordFrame) (key : Key) (value : Value) (seq : ℕ) : Option RecordFrame :=
  match f.leaf key with
  | none => none
  | some old =>
    let leaves := f.setLeaf ⟨key, value, seq, false⟩
    if leafBodySize key value ≤ leafBodySize key old.value then
      some { f with header := f.header.resurrect old.tombstone, leaves := leaves }
    else
      let header := (f.header.allocLeaf (leafBodySize key value)).noteAbandoned
        (leafBodySize key old.value)
      some { f with header := header.resurrect old.tombstone, leaves := leaves }

/-- A new key; `header` is the header afterwards. -/
def insert (f : RecordFrame) (key : Key) (value : Value) (seq : ℕ) (header : ReadIndexStamp) :
    Option RecordFrame :=
  if f.leaf key = none ∧ f.header.numSlots < header.numSlots then
    some { f with header := header, leaves := f.leaves ++ [⟨key, value, seq, false⟩] }
  else none

/-- `erase_at_leaf`. -/
def erase (f : RecordFrame) (key : Key) : Option RecordFrame :=
  match f.leaf key with
  | none => none
  | some l =>
    if l.tombstone then none
    else some { f with
      header := { f.header with tombstoneLeafCnt := f.header.tombstoneLeafCnt + 1 }
      leaves := f.setLeaf { l with tombstone := true } }

end RecordFrame

inductive FrameUpdate
  | insert (key : Key) (value : Value) (seq : ℕ) (header : ReadIndexStamp)
  | update (key : Key) (value : Value) (seq : ℕ)
  | erase (key : Key)

namespace RecordFrame

def step (f : RecordFrame) : FrameUpdate → Option RecordFrame
  | .insert key value seq header => f.insert key value seq header
  | .update key value seq => f.update key value seq
  | .erase key => f.erase key

/-- The update overwrites the leaf of its key in place. -/
def inPlace (f : RecordFrame) : FrameUpdate → Bool
  | .update key value _ =>
    (f.leaf key).any (fun old => leafBodySize key value ≤ leafBodySize key old.value)
  | _ => false

end RecordFrame

/-- There are more slots, or as many with more tombstones. -/
def ReadIndexStamp.Before (h h' : ReadIndexStamp) : Prop :=
  h.numSlots < h'.numSlots ∨ h.numSlots = h'.numSlots ∧ h.tombstoneLeafCnt < h'.tombstoneLeafCnt

lemma ReadIndexStamp.Before.trans {h h' h'' : ReadIndexStamp} (hlt : h.Before h')
    (hlt' : h'.Before h'') : h.Before h'' := by
  unfold Before at *
  omega

lemma ReadIndexStamp.numSlots_resurrect (h : ReadIndexStamp) (tombstone : Bool) :
    (h.resurrect tombstone).numSlots = h.numSlots := by
  cases tombstone <;> rfl

lemma RecordFrame.before_step {f f' : RecordFrame} {u : FrameUpdate} (hfresh : f.inPlace u = false)
    (h : f.step u = some f') : f.header.Before f'.header := by
  cases u with
  | insert key value seq header =>
    obtain ⟨⟨-, hslots⟩, rfl⟩ := Transition.guard_eq_some.mp h
    exact .inl hslots
  | update key value seq =>
    simp only [step, update] at h
    cases hleaf : f.leaf key with
    | none => simp [hleaf] at h
    | some old =>
      have hlarge : ¬ leafBodySize key value ≤ leafBodySize key old.value := by
        simpa [inPlace, hleaf] using hfresh
      simp only [hleaf, if_neg hlarge, Option.some.injEq] at h
      subst h
      refine .inl ?_
      rw [ReadIndexStamp.numSlots_resurrect]
      exact Nat.lt_succ_self _
  | erase key =>
    simp only [step, erase] at h
    cases hleaf : f.leaf key with
    | none => simp [hleaf] at h
    | some l =>
      simp only [hleaf, Option.ite_none_left_eq_some, Option.some.injEq] at h
      obtain ⟨-, rfl⟩ := h
      exact .inr ⟨rfl, Nat.lt_succ_self _⟩

/-- Without an overwrite in place, the stamp of a frame never comes back. -/
lemma RecordFrame.header_ne_of_run {f f' : RecordFrame} {us : List FrameUpdate} (hne : us ≠ [])
    (hrun : Transition.Path step (fun f u => f.inPlace u = false) f us f') :
    f'.header ≠ f.header := by
  have hbefore : f.header.Before f'.header := by
    cases hrun with
    | nil => exact absurd rfl hne
    | cons hfresh hstep hrest =>
      exact hrest.invariant (I := fun g => f.header.Before g.header)
        (fun _ _ _ hlt hfresh hstep => hlt.trans (before_step hfresh hstep))
        (before_step hfresh hstep)
  intro heq
  rw [heq] at hbefore
  unfold ReadIndexStamp.Before at hbefore
  omega

/-! ## Lookups -/

/-- `IndexedBlobLookup`. -/
inductive IndexedBlobLookup
  | unknown
  | notFound
  | found (value : Value) (seq : ℕ)
  | crossing (child : Guid) (depth : ℕ)
deriving DecidableEq

/-- `key_has_prefix_at_depth`: the key counts with its terminator. -/
def keyHasPrefixAtDepth (key : Key) (depth : ℕ) (pre : Key) : Bool :=
  decide (depth + pre.length ≤ key.length + 1) && pre.isPrefixOf ((key ++ [0]).drop depth)

/-- The longest crossing on the way to a key, and the depth behind it. -/
def findCrossing (crossings : List (Key × Guid)) (key : Key) (depth : ℕ) : Option (Guid × ℕ) :=
  ((crossings.insertionSort (fun a b => b.1.length ≤ a.1.length)).find?
    (fun c => keyHasPrefixAtDepth key depth c.1)).map (fun c => (c.2, depth + c.1.length))

/-- The live leaf of a key. -/
def findLive (leaves : List FrameLeaf) (key : Key) : Option FrameLeaf :=
  leaves.find? (fun l => l.key = key ∧ l.tombstone = false)

/-- A lookup in the frame itself. -/
def RecordFrame.lookup (f : RecordFrame) (key : Key) (depth : ℕ) : IndexedBlobLookup :=
  match findCrossing f.crossings key depth with
  | some (child, depth) => .crossing child depth
  | none =>
    match findLive f.leaves key with
    | some l => .found l.value l.seq
    | none => .notFound

/-! ## The index -/

/-- `INLINE_VALUE_MAX`. -/
def inlineValueMax : ℕ := 256

/-- Where an index entry has its value. -/
inductive ValueSource
  | inline (value : Value)
  | segment (off len crc : ℕ)
deriving DecidableEq

/-- An entry of a bucket block. -/
structure IndexEntry where
  key : Key
  source : ValueSource
  seq : ℕ
deriving DecidableEq

section Index

variable (crc32 : List Byte → ℕ)

/-- `index_leaf` and `pack_value_segments`: the entries of the live leaves, with the values
that are not inline placed one after the other from `cursor` on. -/
def packEntries : ℕ → List FrameLeaf → List IndexEntry
  | _, [] => []
  | cursor, l :: rest =>
    if l.tombstone then packEntries cursor rest
    else if l.value.length ≤ inlineValueMax then
      ⟨l.key, .inline l.value, l.seq⟩ :: packEntries cursor rest
    else
      ⟨l.key, .segment cursor l.value.length (crc32 l.value), l.seq⟩ ::
        packEntries (cursor + l.value.length) rest

/-- The bytes of the value segment. -/
def packValues : List FrameLeaf → List Byte
  | [] => []
  | l :: rest =>
    if l.tombstone then packValues rest
    else if l.value.length ≤ inlineValueMax then packValues rest
    else l.value ++ packValues rest

/-- `read_value_segment_range`: past the end of the file there are zeros. -/
def readSegment (segment : List Byte) (off len : ℕ) : List Byte :=
  (List.range len).map (fun i => segment.getD (off + i) 0)

/-- `read_index_lookup` on the index built from `f`, with the value segment as it is.  An empty
inline value cannot be told from a missing one. -/
def indexLookup (f : RecordFrame) (segment : List Byte) (key : Key) (depth : ℕ) :
    IndexedBlobLookup :=
  match findCrossing f.crossings key depth with
  | some (child, depth) => .crossing child depth
  | none =>
    match (packEntries crc32 0 f.leaves).find? (fun e => e.key = key) with
    | none => .notFound
    | some e =>
      match e.source with
      | .inline value => if value = [] then .unknown else .found value e.seq
      | .segment off len crc =>
        let value := readSegment segment off len
        if crc32 value = crc then .found value e.seq else .unknown

/-! ## An index answers as its frame does -/

/-- The segment serves the index: a value that passes its checksum is the value of the leaf. -/
def SegmentServes (f : RecordFrame) (segment : List Byte) : Prop :=
  ∀ key e off l, (packEntries crc32 0 f.leaves).find? (fun e => e.key = key) = some e →
    findLive f.leaves key = some l → e.source = .segment off l.value.length (crc32 l.value) →
      crc32 (readSegment segment off l.value.length) = crc32 l.value →
        readSegment segment off l.value.length = l.value

/-- No long value of the frame has the checksum of as many zero bytes, unless it is that. -/
def ZerosDetected (f : RecordFrame) : Prop :=
  ∀ l ∈ f.leaves, crc32 (List.replicate l.value.length 0) = crc32 l.value →
    l.value = List.replicate l.value.length 0

instance (f : RecordFrame) : Decidable (ZerosDetected crc32 f) := by
  unfold ZerosDetected
  infer_instance

variable {crc32}

lemma find_packEntries (cursor : ℕ) (leaves : List FrameLeaf) (key : Key) :
    match (packEntries crc32 cursor leaves).find? (fun e => e.key = key), findLive leaves key with
    | none, none => True
    | some e, some l => e.key = key ∧ e.seq = l.seq ∧
        (e.source = .inline l.value ∨
          ∃ off, e.source = .segment off l.value.length (crc32 l.value))
    | _, _ => False := by
  induction leaves generalizing cursor with
  | nil => trivial
  | cons l rest ih =>
    by_cases hdead : l.tombstone = true
    · have hlive : findLive (l :: rest) key = findLive rest key := by
        simp [findLive, hdead]
      have hpack : packEntries crc32 cursor (l :: rest) = packEntries crc32 cursor rest := by
        simp [packEntries, hdead]
      rw [hlive, hpack]
      exact ih cursor
    · by_cases hkey : l.key = key
      · have hlive : findLive (l :: rest) key = some l := by
          simp [findLive, hkey, hdead]
        by_cases hlen : l.value.length ≤ inlineValueMax
        · simp [packEntries, hdead, hlen, hlive, hkey]
        · simp [packEntries, hdead, hlen, hlive, hkey]
      · have hlive : findLive (l :: rest) key = findLive rest key := by
          simp [findLive, hkey]
        rw [hlive]
        by_cases hlen : l.value.length ≤ inlineValueMax
        · have hpack : (packEntries crc32 cursor (l :: rest)).find? (fun e => e.key = key) =
              (packEntries crc32 cursor rest).find? (fun e => e.key = key) := by
            simp [packEntries, hdead, hlen, hkey]
          rw [hpack]
          exact ih cursor
        · have hpack : (packEntries crc32 cursor (l :: rest)).find? (fun e => e.key = key) =
              (packEntries crc32 (cursor + l.value.length) rest).find? (fun e => e.key = key) := by
            simp [packEntries, hdead, hlen, hkey]
          rw [hpack]
          exact ih _

variable {segment : List Byte}

/-- An index whose segment serves it gives the answer of its frame, or none. -/
theorem indexLookup_eq {f : RecordFrame} (h : SegmentServes crc32 f segment) (key : Key)
    (depth : ℕ) :
    indexLookup crc32 f segment key depth = .unknown ∨
      indexLookup crc32 f segment key depth = f.lookup key depth := by
  unfold indexLookup RecordFrame.lookup
  cases findCrossing f.crossings key depth with
  | some c => exact .inr rfl
  | none =>
    have hfind := @find_packEntries crc32 0 f.leaves key
    cases hentry : (packEntries crc32 0 f.leaves).find? (fun e => e.key = key) with
    | none =>
      cases hlive : findLive f.leaves key with
      | none => exact .inr rfl
      | some l => simp [hentry, hlive] at hfind
    | some e =>
      cases hlive : findLive f.leaves key with
      | none => simp [hentry, hlive] at hfind
      | some l =>
        simp only [hentry, hlive] at hfind
        obtain ⟨-, hseq, hsource⟩ := hfind
        rcases hsource with hsource | ⟨off, hsource⟩
        · simp only [hsource]
          by_cases hempty : l.value = []
          · exact .inl (if_pos hempty)
          · exact .inr (by rw [if_neg hempty, hseq])
        · simp only [hsource]
          by_cases hcrc : crc32 (readSegment segment off l.value.length) = crc32 l.value
          · have hvalue := h key e off l hentry hlive hsource hcrc
            exact .inr (by rw [if_pos hcrc, hvalue, hseq])
          · exact .inl (if_neg hcrc)

/-! ## Segments that serve -/

lemma readSegment_append (pre value post : List Byte) :
    readSegment (pre ++ (value ++ post)) pre.length value.length = value := by
  refine ext_getElem (by simp [readSegment]) fun i _ hi => ?_
  simp [readSegment, getD_eq_getElem?_getD, getElem?_append_right,
    getElem?_append_left hi, getElem?_eq_getElem hi]

lemma readSegment_zeros (h : ∀ b ∈ segment, b = 0) (off len : ℕ) :
    readSegment segment off len = List.replicate len 0 := by
  refine ext_getElem (by simp [readSegment]) fun i _ _ => ?_
  simp only [readSegment, getElem_map, getElem_range, getElem_replicate,
    getD_eq_getElem?_getD]
  cases hget : segment[off + i]? with
  | none => rfl
  | some b => exact h b (mem_of_getElem? hget)

/-- The value of a long leaf is found where its entry says. -/
lemma readSegment_packValues (leaves : List FrameLeaf) (pre post : List Byte) (key : Key)
    {e : IndexEntry} {l : FrameLeaf} {off : ℕ}
    (hentry : (packEntries crc32 pre.length leaves).find? (fun e => e.key = key) = some e)
    (hlive : findLive leaves key = some l)
    (hsource : e.source = .segment off l.value.length (crc32 l.value)) :
    readSegment (pre ++ (packValues leaves ++ post)) off l.value.length = l.value := by
  induction leaves generalizing pre with
  | nil => cases hlive
  | cons x rest ih =>
    by_cases hdead : x.tombstone = true
    · have hlive' : findLive rest key = some l := by simpa [findLive, hdead] using hlive
      simp only [packEntries, packValues, hdead, if_true] at hentry ⊢
      exact ih pre hentry hlive'
    · by_cases hlen : x.value.length ≤ inlineValueMax
      · simp only [packEntries, packValues, hdead, hlen, if_true, Bool.false_eq_true, if_false]
          at hentry ⊢
        by_cases hkey : x.key = key
        · -- an inline entry has no place in the segment
          rw [find?_cons_of_pos (by simpa using hkey), Option.some.injEq] at hentry
          subst hentry
          cases hsource
        · rw [find?_cons_of_neg (by simpa using hkey)] at hentry
          exact ih pre hentry (by simpa [findLive, hkey] using hlive)
      · simp only [packEntries, packValues, hdead, hlen, Bool.false_eq_true, if_false] at hentry ⊢
        by_cases hkey : x.key = key
        · rw [find?_cons_of_pos (by simpa using hkey), Option.some.injEq] at hentry
          obtain rfl : x = l := by simpa [findLive, hkey, hdead] using hlive
          subst hentry
          obtain rfl : pre.length = off := by simpa using hsource
          rw [append_assoc]
          exact readSegment_append pre x.value _
        · rw [find?_cons_of_neg (by simpa using hkey)] at hentry
          have hrest := ih (pre ++ x.value) (by simpa using hentry)
            (by simpa [findLive, hkey] using hlive)
          simpa using hrest

lemma segmentServes_packValues (f : RecordFrame) (post : List Byte) :
    SegmentServes crc32 f (packValues f.leaves ++ post) := by
  intro key e off l hentry hlive hsource _
  exact readSegment_packValues f.leaves [] post key hentry hlive hsource

lemma segmentServes_zeros {f : RecordFrame} (hf : ZerosDetected crc32 f)
    (h : ∀ b ∈ segment, b = 0) :
    SegmentServes crc32 f segment := by
  intro key e off l _ hlive _ hcrc
  rw [readSegment_zeros h] at hcrc ⊢
  exact (hf l (mem_of_find?_eq_some hlive) hcrc).symm

end Index

end Store
end Holt
