import Mathlib.Data.List.AList
import Holt.Journal.Ring
import Holt.Lib.FrameLog
import Holt.Lib.LittleEndian
import Holt.Store.Slots

/-!
# The manifest log

`FileBlobStore` keeps the slot of each blob in a manifest: a snapshot file and an append-only
log of changes to it.  A log record is a frame: a magic, the length of the body, the type, the
body, and the CRC of all this.  `replay_log` applies the records to the entries of the
snapshot and refuses a record that puts a blob into a slot which an earlier record of the same
log gave to another blob.

The CRC is that of the `crc32fast` crate and a parameter here: nothing below depends on what
it computes.

`replayLog_spec` says what replay does with whole frames followed by a torn one: it makes the
recorded changes, on whatever entries it starts from, as long as no record conflicts
(`NoConflict`).
-/

namespace Holt
namespace Store

open Function List FrameLog LittleEndian

/-- A blob's name. -/
abbrev Guid := {bytes : List Byte // bytes.length = 16}

/-- The slots of the blobs. -/
abbrev Entries := AList (fun _ : Guid => ℕ)

inductive ManifestDelta
  | set (guid : Guid) (slot : ℕ)
  | delete (guid : Guid)
deriving DecidableEq

inductive ManifestError
  | logMagic
  | logCrc
  | setLength
  | deleteLength
  | unknownOp
  | slotConflict
  | snapshotTruncated
  | snapshotMagic
  | snapshotVersion
  | duplicateGuid
  | slots (e : SlotError)
deriving DecidableEq

/-! ## Frames -/

/-- `MANIFEST_LOG_MAGIC`, the bytes of `MLG1`. -/
def logMagic : List Byte := [77, 76, 71, 49]

lemma length_logMagic : logMagic.length = 4 := rfl

def logHeaderSize : ℕ := 9

def logFooterSize : ℕ := 4

def setBodySize : ℕ := 24

def deleteBodySize : ℕ := 16

def ManifestDelta.ty : ManifestDelta → Byte
  | .set _ _ => 1
  | .delete _ => 2

def ManifestDelta.body : ManifestDelta → List Byte
  | .set guid slot => guid.val ++ bytes 8 slot
  | .delete guid => guid.val

def ManifestDelta.guid : ManifestDelta → Guid
  | .set guid _ | .delete guid => guid

/-- The slot fits its field. -/
def ManifestDelta.Fits : ManifestDelta → Prop
  | .set _ slot => slot < 2 ^ 64
  | .delete _ => True

section Frames

variable (crc : List Byte → UInt32)

/-- A frame without its CRC. -/
def ManifestDelta.covered (d : ManifestDelta) : List Byte :=
  logMagic ++ bytes 4 d.body.length ++ [d.ty] ++ d.body

/-- `encode_manifest_delta`. -/
def encodeManifestDelta (d : ManifestDelta) : List Byte :=
  d.covered ++ bytes 4 (crc d.covered).toNat

/-- The record of a frame whose CRC is right. -/
def decodeBody (ty : Byte) (body : List Byte) : Except ManifestError ManifestDelta :=
  if ty = 1 then
    if body.length = setBodySize then
      if h : (body.take 16).length = 16 then .ok (.set ⟨body.take 16, h⟩ (value (body.drop 16)))
      else .error .setLength
    else .error .setLength
  else if ty = 2 then
    if h : body.length = deleteBodySize then .ok (.delete ⟨body, h⟩) else .error .deleteLength
  else .error .unknownOp

/-- What `replay_log` finds at its offset. -/
def logHead (buf : List Byte) : Head ManifestDelta ManifestError :=
  if buf.length < logHeaderSize then .torn
  else if buf.take 4 ≠ logMagic then .corrupt .logMagic
  else
    let bodyLen := value ((buf.drop 4).take 4)
    let ty := buf.getD 8 0
    let recordLen := logHeaderSize + bodyLen + logFooterSize
    if buf.length < recordLen then .torn
    else if value ((buf.drop (logHeaderSize + bodyLen)).take 4) ≠
        (crc (buf.take (logHeaderSize + bodyLen))).toNat then .corrupt .logCrc
    else
      match decodeBody ty ((buf.drop logHeaderSize).take bodyLen) with
      | .ok d => .frame d recordLen
      | .error e => .corrupt e

variable {crc}

lemma length_body_le (d : ManifestDelta) : d.body.length ≤ 24 := by
  cases d with
  | set guid slot | delete guid => simp [ManifestDelta.body, guid.2]

@[simp] lemma length_covered (d : ManifestDelta) :
    d.covered.length = logHeaderSize + d.body.length := by
  simp [ManifestDelta.covered, logMagic, logHeaderSize]
  omega

lemma length_encode (d : ManifestDelta) :
    (encodeManifestDelta crc d).length = logHeaderSize + d.body.length + logFooterSize := by
  rw [encodeManifestDelta, length_append, length_covered, length_bytes, logFooterSize]

lemma value_bodyLength (d : ManifestDelta) : value (bytes 4 d.body.length) = d.body.length :=
  value_bytes_of_lt (lt_of_le_of_lt (length_body_le d) (by norm_num))

variable {d : ManifestDelta}

lemma decodeBody_body (hd : d.Fits) : decodeBody d.ty d.body = .ok d := by
  cases d with
  | set guid slot =>
    have htake : (guid.val ++ bytes 8 slot).take 16 = guid.val := take_left' guid.2
    have hdrop : (guid.val ++ bytes 8 slot).drop 16 = bytes 8 slot := drop_left' guid.2
    have hslot : value (bytes 8 slot) = slot :=
      value_bytes_of_lt (lt_of_lt_of_eq hd (by norm_num))
    simp [decodeBody, ManifestDelta.ty, ManifestDelta.body, setBodySize, guid.2, htake, hdrop,
      hslot]
  | delete guid =>
    simp [decodeBody, ManifestDelta.ty, ManifestDelta.body, deleteBodySize, guid.2]

lemma encode_append (d : ManifestDelta) (rest : List Byte) :
    encodeManifestDelta crc d ++ rest = logMagic ++ (bytes 4 d.body.length ++
      (d.ty :: (d.body ++ (bytes 4 (crc d.covered).toNat ++ rest)))) := by
  simp [encodeManifestDelta, ManifestDelta.covered]

lemma logHead_encode (hd : d.Fits) (rest : List Byte) :
    logHead crc (encodeManifestDelta crc d ++ rest) =
      .frame d (encodeManifestDelta crc d).length := by
  have hlen : (encodeManifestDelta crc d ++ rest).length =
      logHeaderSize + d.body.length + logFooterSize + rest.length := by
    rw [length_append, length_encode]
  have hmagic : (encodeManifestDelta crc d ++ rest).take 4 = logMagic := by
    rw [encode_append]
    exact take_left' rfl
  have hbody : ((encodeManifestDelta crc d ++ rest).drop 4).take 4 = bytes 4 d.body.length := by
    rw [encode_append, drop_left' length_logMagic]
    exact take_left' (length_bytes _ _)
  have hty : (encodeManifestDelta crc d ++ rest).getD 8 0 = d.ty := by
    rw [encode_append]
    simp [logMagic, List.getD]
  have hcovered : (encodeManifestDelta crc d ++ rest).take (logHeaderSize + d.body.length) =
      d.covered := by
    rw [encodeManifestDelta, append_assoc]
    exact take_left' (length_covered d)
  have hcrc : ((encodeManifestDelta crc d ++ rest).drop (logHeaderSize + d.body.length)).take 4 =
      bytes 4 (crc d.covered).toNat := by
    rw [encodeManifestDelta, append_assoc, drop_left' (length_covered d)]
    exact take_left' (length_bytes _ _)
  have hpayload : ((encodeManifestDelta crc d ++ rest).drop logHeaderSize).take d.body.length =
      d.body := by
    have hsplit : encodeManifestDelta crc d ++ rest =
        (logMagic ++ bytes 4 d.body.length ++ [d.ty]) ++
          (d.body ++ (bytes 4 (crc d.covered).toNat ++ rest)) := by
      simp [encode_append]
    rw [hsplit, drop_left' (by simp [logMagic, logHeaderSize])]
    exact take_left' rfl
  have hsum : value (bytes 4 (crc d.covered).toNat) = (crc d.covered).toNat :=
    value_bytes_of_lt (lt_of_lt_of_eq (crc d.covered).toNat_lt (by norm_num))
  have hlong : ¬ (encodeManifestDelta crc d ++ rest).length < logHeaderSize := by omega
  have hwhole : ¬ (encodeManifestDelta crc d ++ rest).length <
      logHeaderSize + d.body.length + logFooterSize := by omega
  simp only [logHead, if_neg hlong, hmagic, ne_eq, not_true_eq_false, if_false, hbody,
    value_bodyLength, if_neg hwhole, hcrc, hcovered, hsum, hty, hpayload, decodeBody_body hd,
    length_encode]

lemma logHead_torn {part : List Byte} (hpart : part <+: encodeManifestDelta crc d)
    (hne : part ≠ encodeManifestDelta crc d) : logHead crc part = .torn := by
  obtain ⟨rest, hrest⟩ := hpart
  have hlen : part.length < (encodeManifestDelta crc d).length := by
    rw [← hrest, length_append]
    have : rest ≠ [] := fun h => hne (by simpa [h] using hrest)
    have := length_pos_iff.mpr this
    omega
  by_cases hshort : part.length < logHeaderSize
  · rw [logHead, if_pos hshort]
  · -- the header is whole, and says that more is to come
    have hheader : 9 ≤ part.length := by simpa [logHeaderSize] using hshort
    have hmagic : part.take 4 = logMagic := by
      have htake : (part ++ rest).take 4 = part.take 4 :=
        take_append_of_le_length (by omega)
      rw [← htake, hrest, ← append_nil (encodeManifestDelta crc d), encode_append]
      exact take_left' rfl
    have hbody : (part.drop 4).take 4 = bytes 4 d.body.length := by
      have htake : ((part ++ rest).drop 4).take 4 = (part.drop 4).take 4 := by
        rw [drop_append_of_le_length (by omega),
          take_append_of_le_length (by rw [length_drop]; omega)]
      rw [← htake, hrest, ← append_nil (encodeManifestDelta crc d), encode_append,
        drop_left' length_logMagic]
      exact take_left' (length_bytes _ _)
    rw [length_encode] at hlen
    simp only [logHead, if_neg hshort, hmagic, ne_eq, not_true_eq_false, if_false, hbody,
      value_bodyLength, if_pos hlen]

/-- The writer and the reader of the manifest log agree on its frames. -/
lemma framing : Framing (logHead crc) (encodeManifestDelta crc) ManifestDelta.Fits where
  pos d := by
    rw [length_encode, logHeaderSize]
    omega
  read _ hd rest := logHead_encode hd rest
  torn _ _ _ hpart hne := logHead_torn hpart hne

lemma logHead_nil : logHead crc [] = .torn := rfl

end Frames

/-! ## Replay -/

/-- What `replay_log` changes. -/
structure Replay where
  entries : Entries
  nextSlot : ℕ
  /-- The slots that records of this log have given away. -/
  slotOwners : ℕ → Option Guid

/-- The holder of a slot lets go of it. -/
def release (owners : ℕ → Option Guid) (slot : Option ℕ) : ℕ → Option Guid :=
  match slot with
  | some slot => Function.update owners slot none
  | none => owners

/-- One record of `replay_log`. -/
def applyDelta : ManifestDelta → Replay → Except ManifestError Replay
  | .set guid slot, r =>
    if (r.slotOwners slot).any (fun holder => holder ≠ guid) then .error .slotConflict
    else
      let owners := match r.entries.lookup guid with
        | some previous =>
          if previous ≠ slot then release r.slotOwners (some previous) else r.slotOwners
        | none => r.slotOwners
      .ok { entries := r.entries.insert guid slot
            nextSlot := max r.nextSlot (slot + 1)
            slotOwners := Function.update owners slot (some guid) }
  | .delete guid, r =>
    .ok { r with
      entries := r.entries.erase guid
      slotOwners := release r.slotOwners (r.entries.lookup guid) }

/-- `replay_log`: the entries, the slot high water, and the length of the valid part. -/
def replayLog (crc : List Byte → UInt32) (buf : List Byte) (entries : Entries) (nextSlot : ℕ) :
    Except ManifestError (Replay × ℕ) :=
  (replay (logHead crc) applyDelta buf.length buf ⟨entries, nextSlot, fun _ => none⟩).map
    (fun result => (result.1, buf.length - result.2.length))

/-! ## What the records of a log do -/

/-- A map from blobs to slots. -/
abbrev SlotMap := Guid → Option ℕ

def applyToMap (m : SlotMap) : ManifestDelta → SlotMap
  | .set guid slot => Function.update m guid (some slot)
  | .delete guid => Function.update m guid none

/-- The map after all records. -/
def applyDeltas (m : SlotMap) (ds : List ManifestDelta) : SlotMap := ds.foldl applyToMap m

/-- No record puts a blob into a slot in which earlier records of the list have put, and left,
another blob. -/
def NoConflict (ds : List ManifestDelta) : Prop :=
  ∀ before guid slot after, ds = before ++ .set guid slot :: after →
    ∀ other, other ≠ guid → applyDeltas (fun _ => none) before other ≠ some slot

@[simp] lemma applyDeltas_nil (m : SlotMap) : applyDeltas m [] = m := rfl

lemma applyDeltas_append (m : SlotMap) (ds es : List ManifestDelta) :
    applyDeltas m (ds ++ es) = applyDeltas (applyDeltas m ds) es := foldl_append

lemma applyDeltas_concat (m : SlotMap) (ds : List ManifestDelta) (d : ManifestDelta) :
    applyDeltas m (ds ++ [d]) = applyToMap (applyDeltas m ds) d := applyDeltas_append m ds [d]

lemma applyToMap_set (m : SlotMap) (guid : Guid) (slot : ℕ) (k : Guid) :
    applyToMap m (.set guid slot) k = if k = guid then some slot else m k :=
  update_apply _ _ _ _

lemma applyToMap_delete (m : SlotMap) (guid k : Guid) :
    applyToMap m (.delete guid) k = if k = guid then none else m k :=
  update_apply _ _ _ _

variable {d : ManifestDelta} {guid : Guid}

lemma applyToMap_of_ne {m : SlotMap} (h : guid ≠ d.guid) : applyToMap m d guid = m guid := by
  cases d with
  | set g slot => exact (applyToMap_set m g slot guid).trans (if_neg h)
  | delete g => exact (applyToMap_delete m g guid).trans (if_neg h)

/-- What a record does to its own blob does not depend on where the blob was. -/
lemma applyToMap_self (m m' : SlotMap) (d : ManifestDelta) :
    applyToMap m d d.guid = applyToMap m' d d.guid := by
  cases d with
  | set g slot => rw [applyToMap_set, applyToMap_set, ManifestDelta.guid, if_pos rfl, if_pos rfl]
  | delete g => rw [applyToMap_delete, applyToMap_delete, ManifestDelta.guid, if_pos rfl,
    if_pos rfl]

variable {ds : List ManifestDelta}

lemma applyDeltas_of_not_mem (h : ∀ d ∈ ds, d.guid ≠ guid) (m : SlotMap) :
    applyDeltas m ds guid = m guid := by
  induction ds generalizing m with
  | nil => rfl
  | cons d ds ih =>
    refine (ih (forall_mem_cons.mp h).2 _).trans ?_
    exact applyToMap_of_ne (h d mem_cons_self).symm

/-- A blob some record is about ends where the last such record puts it, wherever it was. -/
lemma applyDeltas_eq_of_mem (h : ∃ d ∈ ds, d.guid = guid) (m m' : SlotMap) :
    applyDeltas m ds guid = applyDeltas m' ds guid := by
  induction ds generalizing m m' with
  | nil => simp at h
  | cons d ds ih =>
    by_cases hlater : ∃ x ∈ ds, x.guid = guid
    · exact ih hlater _ _
    · have hnot : ∀ x ∈ ds, x.guid ≠ guid := fun x hx heq => hlater ⟨x, hx, heq⟩
      obtain ⟨x, hx, rfl⟩ := h
      rcases mem_cons.mp hx with rfl | hx
      · change applyDeltas (applyToMap m x) ds x.guid = applyDeltas (applyToMap m' x) ds x.guid
        rw [applyDeltas_of_not_mem hnot, applyDeltas_of_not_mem hnot]
        exact applyToMap_self m m' x
      · exact absurd ⟨x, hx, rfl⟩ hlater

lemma applyDeltas_idem (m : SlotMap) (ds : List ManifestDelta) :
    applyDeltas (applyDeltas m ds) ds = applyDeltas m ds := by
  funext guid
  by_cases h : ∃ d ∈ ds, d.guid = guid
  · exact applyDeltas_eq_of_mem h _ _
  · exact applyDeltas_of_not_mem (fun d hd heq => h ⟨d, hd, heq⟩) _

variable {slot : ℕ}

/-- Where records have put a blob does not depend on where they started. -/
lemma applyDeltas_of_empty (h : applyDeltas (fun _ => none) ds guid = some slot) (m : SlotMap) :
    applyDeltas m ds guid = some slot := by
  by_cases hmem : ∃ d ∈ ds, d.guid = guid
  · rw [← h]
    exact applyDeltas_eq_of_mem hmem _ _
  · rw [applyDeltas_of_not_mem (fun d hd heq => hmem ⟨d, hd, heq⟩)] at h
    simp at h

/-- A slot a blob ends in was its slot before, or a record put it there. -/
lemma mem_of_applyDeltas {m : SlotMap} (h : applyDeltas m ds guid = some slot) :
    m guid = some slot ∨ .set guid slot ∈ ds := by
  induction ds generalizing m with
  | nil => exact .inl h
  | cons d ds ih =>
    rcases ih h with hm | hmem
    · by_cases hguid : guid = d.guid
      · cases d with
        | set g s =>
          obtain rfl : guid = g := hguid
          rw [applyToMap_set, if_pos rfl, Option.some.injEq] at hm
          exact .inr (hm ▸ mem_cons_self)
        | delete g =>
          obtain rfl : guid = g := hguid
          rw [applyToMap_delete, if_pos rfl] at hm
          simp at hm
      · rw [applyToMap_of_ne hguid] at hm
        exact .inl hm
    · exact .inr (mem_cons_of_mem _ hmem)

/-- Records are appended without a conflict if none of them takes a slot of another blob. -/
lemma NoConflict.append {part : List ManifestDelta} (hds : NoConflict ds)
    (hpart : ∀ before guid slot after, part = before ++ .set guid slot :: after →
      ∀ other, other ≠ guid → applyDeltas (fun _ => none) (ds ++ before) other ≠ some slot) :
    NoConflict (ds ++ part) := by
  intro before guid slot after hsplit other hother
  rcases append_eq_append_iff.mp hsplit with ⟨middle, rfl, hrest⟩ | ⟨middle, hds', hrest⟩
  · exact hpart middle guid slot after hrest other hother
  · cases middle with
    | nil =>
      rw [append_nil] at hds'
      have hfirst := hpart [] guid slot after hrest.symm other hother
      rwa [append_nil, hds'] at hfirst
    | cons d middle =>
      rw [cons_append, List.cons.injEq] at hrest
      exact hds before guid slot middle (hds'.trans (by rw [hrest.1])) other hother

/-- The high water of a log: one past the highest slot it gives away. -/
def highWater (n : ℕ) : ManifestDelta → ℕ
  | .set _ slot => max n (slot + 1)
  | .delete _ => n

lemma le_highWater (n : ℕ) (ds : List ManifestDelta) : n ≤ ds.foldl highWater n := by
  induction ds generalizing n with
  | nil => exact le_refl n
  | cons d ds ih =>
    refine le_trans ?_ (ih (highWater n d))
    cases d with
    | set _ slot => exact le_max_left _ _
    | delete _ => exact le_refl n

lemma slot_lt_highWater {n : ℕ} (h : .set guid slot ∈ ds) : slot < ds.foldl highWater n := by
  induction ds generalizing n with
  | nil => simp at h
  | cons d ds ih =>
    rcases mem_cons.mp h with rfl | hmem
    · exact lt_of_lt_of_le (lt_of_lt_of_le (Nat.lt_succ_self slot) (le_max_right _ _))
        (le_highWater _ ds)
    · exact ih hmem

lemma highWater_le {n bound : ℕ} (hn : n ≤ bound)
    (h : ∀ guid slot, .set guid slot ∈ ds → slot < bound) : ds.foldl highWater n ≤ bound := by
  induction ds generalizing n with
  | nil => exact hn
  | cons d ds ih =>
    refine ih ?_ (fun guid slot hmem => h guid slot (mem_cons_of_mem _ hmem))
    cases d with
    | set guid slot => exact max_le hn (h guid slot mem_cons_self)
    | delete _ => exact hn

/-- The owners `replay_log` keeps are right for the records it has seen. -/
structure Tracks (before : List ManifestDelta) (r : Replay) : Prop where
  owned : ∀ slot guid, r.slotOwners slot = some guid →
    applyDeltas (fun _ => none) before guid = some slot
  placed : ∀ guid slot, applyDeltas (fun _ => none) before guid = some slot →
    r.entries.lookup guid = some slot

lemma release_eq_some {owners : ℕ → Option Guid} {slot : Option ℕ} {s : ℕ}
    (h : release owners slot s = some guid) : owners s = some guid ∧ slot ≠ some s := by
  cases slot with
  | none => exact ⟨h, by simp⟩
  | some slot =>
    rw [release] at h
    by_cases hs : s = slot
    · subst hs
      simp at h
    · rw [update_of_ne hs] at h
      exact ⟨h, fun heq => hs (Option.some.inj heq).symm⟩

lemma lookup_insert_entries (entries : Entries) (guid : Guid) (slot : ℕ) :
    (entries.insert guid slot).lookup = applyToMap entries.lookup (.set guid slot) := by
  funext k
  rw [applyToMap_set]
  by_cases hk : k = guid
  · rw [if_pos hk, hk, AList.lookup_insert]
  · rw [if_neg hk, AList.lookup_insert_ne hk]

lemma lookup_erase_entries (entries : Entries) (guid : Guid) :
    (entries.erase guid).lookup = applyToMap entries.lookup (.delete guid) := by
  funext k
  rw [applyToMap_delete]
  by_cases hk : k = guid
  · rw [if_pos hk, hk, AList.lookup_erase]
  · rw [if_neg hk, AList.lookup_erase_ne hk]

variable {before : List ManifestDelta} {r : Replay}

variable (ht : Tracks before r)
include ht

/-- After one more record the placed blobs are those of the entries. -/
lemma Tracks.placed_append {entries : Entries} (he : entries.lookup = applyToMap r.entries.lookup d)
    (hplace : applyDeltas (fun _ => none) (before ++ [d]) guid = some slot) :
    entries.lookup guid = some slot := by
  rw [applyDeltas_concat] at hplace
  refine (congrFun he guid).trans ?_
  by_cases hg : guid = d.guid
  · rw [hg] at hplace ⊢
    exact (applyToMap_self _ _ d).trans hplace
  · rw [applyToMap_of_ne hg] at hplace ⊢
    exact ht.placed guid slot hplace

lemma Tracks.owned_append (hown : r.slotOwners slot = some guid)
    (hprev : r.entries.lookup d.guid ≠ some slot) :
    applyDeltas (fun _ => none) (before ++ [d]) guid = some slot := by
  have hplace := ht.owned slot guid hown
  have hne : guid ≠ d.guid := by
    rintro rfl
    exact hprev (ht.placed _ slot hplace)
  rw [applyDeltas_concat]
  exact (applyToMap_of_ne hne).trans hplace

lemma applyDelta_set
    (hfree : ∀ other, other ≠ guid → applyDeltas (fun _ => none) before other ≠ some slot) :
    ∃ r', applyDelta (.set guid slot) r = .ok r' ∧ Tracks (before ++ [.set guid slot]) r' ∧
      r'.entries = r.entries.insert guid slot ∧ r'.nextSlot = max r.nextSlot (slot + 1) := by
  have hok : ¬ (r.slotOwners slot).any (fun holder => holder ≠ guid) = true := by
    rw [Option.any_eq_true]
    rintro ⟨holder, hholder, hne⟩
    exact hfree holder (by simpa using hne) (ht.owned slot holder hholder)
  refine ⟨_, by rw [applyDelta, if_neg hok], ⟨?_, fun g s hplace => ?_⟩, rfl, rfl⟩
  · intro s g hown
    simp only at hown
    by_cases hs : s = slot
    · subst hs
      rw [update_self, Option.some.injEq] at hown
      rw [applyDeltas_concat, ← hown, applyToMap_set, if_pos rfl]
    · rw [update_of_ne hs] at hown
      cases hprev : r.entries.lookup guid with
      | none =>
        rw [hprev] at hown
        exact ht.owned_append hown (by simp [ManifestDelta.guid, hprev])
      | some previous =>
        rw [hprev] at hown
        simp only at hown
        split_ifs at hown with hp
        · obtain ⟨hold, hne⟩ := release_eq_some hown
          exact ht.owned_append hold (by simpa [ManifestDelta.guid, hprev] using hne)
        · rw [not_not] at hp
          refine ht.owned_append hown ?_
          rw [ManifestDelta.guid, hprev, hp]
          exact fun heq => hs (Option.some.inj heq).symm
  · exact ht.placed_append (lookup_insert_entries r.entries guid slot) hplace

lemma applyDelta_delete (guid : Guid) :
    ∃ r', applyDelta (.delete guid) r = .ok r' ∧ Tracks (before ++ [.delete guid]) r' ∧
      r'.entries = r.entries.erase guid ∧ r'.nextSlot = r.nextSlot := by
  refine ⟨_, rfl, ⟨fun s g hown => ?_, fun g s hplace => ?_⟩, rfl, rfl⟩
  · obtain ⟨hold, hprev⟩ := release_eq_some hown
    exact ht.owned_append hold hprev
  · exact ht.placed_append (lookup_erase_entries r.entries guid) hplace

lemma applyAll_spec (hnc : NoConflict (before ++ ds)) :
    ∃ r', applyAll applyDelta ds r = .ok r' ∧ r'.nextSlot = ds.foldl highWater r.nextSlot ∧
      r'.entries.lookup = applyDeltas r.entries.lookup ds := by
  induction ds generalizing before r with
  | nil => exact ⟨r, rfl, rfl, rfl⟩
  | cons d ds ih =>
    have hstep : ∃ r', applyDelta d r = .ok r' ∧ Tracks (before ++ [d]) r' ∧
        r'.entries.lookup = applyToMap r.entries.lookup d ∧
        r'.nextSlot = highWater r.nextSlot d := by
      cases d with
      | set guid slot =>
        obtain ⟨r', happ, ht', hentries, hnext⟩ := applyDelta_set ht (hnc before guid slot ds rfl)
        exact ⟨r', happ, ht', hentries ▸ lookup_insert_entries _ _ _, hnext⟩
      | delete guid =>
        obtain ⟨r', happ, ht', hentries, hnext⟩ := applyDelta_delete ht guid
        exact ⟨r', happ, ht', hentries ▸ lookup_erase_entries _ _, hnext⟩
    obtain ⟨r₁, happ, ht₁, hentries, hnext⟩ := hstep
    obtain ⟨r', hall, hnext', hlookup⟩ := ih ht₁ (by simpa using hnc)
    refine ⟨r', ?_, ?_, ?_⟩
    · rw [applyAll, happ]
      exact hall
    · rw [hnext', hnext, foldl_cons]
    · rw [hlookup, hentries]
      rfl

omit ht

/-- Replaying whole frames without a conflict, followed by a torn one, makes the recorded
changes and keeps the whole frames. -/
theorem replayLog_spec {crc : List Byte → UInt32} {tail : List Byte} (hfits : ∀ d ∈ ds, d.Fits)
    (hnc : NoConflict ds) (htail : logHead crc tail = .torn) (entries : Entries) (nextSlot : ℕ) :
    ∃ r, replayLog crc (ds.flatMap (encodeManifestDelta crc) ++ tail) entries nextSlot =
        .ok (r, (ds.flatMap (encodeManifestDelta crc)).length) ∧
      r.nextSlot = ds.foldl highWater nextSlot ∧
      r.entries.lookup = applyDeltas entries.lookup ds := by
  have hstart : Tracks [] ⟨entries, nextSlot, fun _ => none⟩ := ⟨by simp, by simp⟩
  obtain ⟨r, hall, hnext, hlookup⟩ := applyAll_spec hstart ((nil_append ds).symm ▸ hnc)
  have hfuel : ds.length ≤ (ds.flatMap (encodeManifestDelta crc) ++ tail).length := by
    have := length_le_flatMap (@framing crc) ds
    rw [length_append]
    omega
  refine ⟨r, ?_, hnext, hlookup⟩
  rw [replayLog, replay_append framing hfits htail hfuel, hall]
  simp [Except.map]

end Store
end Holt
