import Mathlib.Data.List.AList
import Holt.Store.ManifestLog

/-!
# The manifest

The manifest says in which slot each blob lies, which slots may be given out, and which
changes are not in the log yet.  A write goes to a slot that no blob is in, and the slot it
replaces is not reusable before the change is durable (`pending_free_slots`).

`Sound` says that no slot has two of these uses and that all are below the high water; every
operation keeps it.  `load_spec` says what opening finds in a snapshot and a log.

The model leaves out the version of a snapshot: version 6 stores are opened by a migration
that is not modelled.
-/

namespace Holt
namespace Store

open List FrameLog LittleEndian
open scoped List

/-- The slots of the blobs, in the order of the entries. -/
def entrySlots (entries : Entries) : List ℕ := entries.entries.map Sigma.snd

structure Manifest where
  entries : Entries
  nextSlot : ℕ
  reusable : ReusableSlots
  /-- Slots to be published as reusable by the next flush. -/
  pendingFree : List ℕ
  /-- Changes that are not in the log. -/
  pendingLog : List ManifestDelta
  logBytes : ℕ

/-- `MANIFEST_MAGIC`, the bytes of `ARTSNMNF`. -/
def snapshotMagic : List Byte := [65, 82, 84, 83, 78, 77, 78, 70]

def manifestVersion : ℕ := 7

def legacyManifestVersion : ℕ := 6

/-- `MANIFEST_LOG_MIN_COMPACT_BYTES`. -/
def minCompactBytes : ℕ := 1024 * 1024

/-- `MANIFEST_LOG_COMPACT_RATIO`. -/
def compactRatio : ℕ := 4

namespace Manifest

def allocateSlot (m : Manifest) : ℕ × Manifest :=
  match m.reusable.pop with
  | some (slot, rest) => (slot, { m with reusable := rest })
  | none => (m.nextSlot, { m with nextSlot := m.nextSlot + 1 })

/-- `reserve_write_entries`: a slot for each write. -/
def reserveWriteEntries {α : Type} : List α → Manifest → List (α × ℕ) × Manifest
  | [], m => ([], m)
  | write :: writes, m =>
    let (slot, m₁) := m.allocateSlot
    let (reserved, m₂) := reserveWriteEntries writes m₁
    ((write, slot) :: reserved, m₂)

def publishWriteEntry (m : Manifest) (guid : Guid) (slot : ℕ) : Manifest :=
  { m with
    entries := m.entries.insert guid slot
    pendingFree := m.pendingFree ++ (m.entries.lookup guid).toList
    pendingLog := m.pendingLog ++ [.set guid slot] }

/-- What `delete_blob` does to the manifest. -/
def deleteEntry (m : Manifest) (guid : Guid) : Manifest :=
  match m.entries.lookup guid with
  | none => m
  | some slot =>
    { m with
      entries := m.entries.erase guid
      pendingFree := m.pendingFree ++ [slot]
      pendingLog := m.pendingLog ++ [.delete guid] }

def publishPendingFreeSlots (m : Manifest) : Manifest :=
  { m with reusable := m.reusable.appendSlots m.pendingFree, pendingFree := [] }

def releaseReservedSlots (m : Manifest) (slots : List ℕ) : Manifest :=
  if slots = [] then m
  else
    let out := (m.reusable.appendSlots slots).trimTrailing m.nextSlot
    { m with reusable := out.1, nextSlot := out.2 }

def shouldCompactLog (m : Manifest) : Bool :=
  minCompactBytes ≤ m.logBytes ∧
    (24 + m.entries.entries.length * 32) * compactRatio ≤ m.logBytes

end Manifest

/-! ## Snapshots -/

/-- An entry of a snapshot. -/
def encodeEntry (entry : (_ : Guid) × ℕ) : List Byte := entry.1.val ++ bytes 8 entry.2

/-- What `persist_snapshot` writes. -/
def encodeSnapshot (entries : Entries) (nextSlot : ℕ) : List Byte :=
  snapshotMagic ++ bytes 2 manifestVersion ++ bytes 4 entries.entries.length ++ [0, 0] ++
    bytes 8 nextSlot ++ entries.entries.flatMap encodeEntry

/-- The entries of a snapshot and the slots they use. -/
def parseEntries : ℕ → List Byte → Entries → List ℕ → Except ManifestError (Entries × List ℕ)
  | 0, _, entries, used => .ok (entries, used)
  | count + 1, buf, entries, used =>
    if h : 24 ≤ buf.length then
      let guid : Guid := ⟨buf.take 16, by rw [List.length_take]; omega⟩
      let slot := value ((buf.drop 16).take 8)
      if guid ∈ entries then .error .duplicateGuid
      else parseEntries count (buf.drop 24) (entries.insert guid slot) (used ++ [slot])
    else .error .snapshotTruncated

/-- `parse_snapshot`: the entries and the high water. -/
def parseSnapshot (buf : List Byte) : Except ManifestError (Entries × ℕ) :=
  if buf.length < 24 then .error .snapshotTruncated
  else if buf.take 8 ≠ snapshotMagic then .error .snapshotMagic
  else
    let version := value ((buf.drop 8).take 2)
    if version ≠ manifestVersion ∧ version ≠ legacyManifestVersion then .error .snapshotVersion
    else
      let count := value ((buf.drop 10).take 4)
      let nextSlot := value ((buf.drop 16).take 8)
      match parseEntries count (buf.drop 24) ∅ [] with
      | .error e => .error e
      | .ok (entries, used) =>
        match ReusableSlots.reconstruct nextSlot used with
        | .error e => .error (.slots e)
        | .ok _ => .ok (entries, nextSlot)

/-- `load_or_create`; `logBytes` is the length of the valid part of the log. -/
def load (crc : List Byte → UInt32) (snapshot log : List Byte) :
    Except ManifestError Manifest :=
  match parseSnapshot snapshot with
  | .error e => .error e
  | .ok (entries, nextSlot) =>
    match replayLog crc log entries nextSlot with
    | .error e => .error e
    | .ok (r, validBytes) =>
      match ReusableSlots.reconstruct r.nextSlot (entrySlots r.entries) with
      | .error e => .error (.slots e)
      | .ok reusable => .ok ⟨r.entries, r.nextSlot, reusable, [], [], validBytes⟩

/-! ## Slots of entries -/

lemma entrySlots_insert (entries : Entries) (guid : Guid) (slot : ℕ) :
    entrySlots (entries.insert guid slot) = slot :: entrySlots (entries.erase guid) := rfl

lemma entrySlots_erase (entries : Entries) (guid : Guid) :
    entrySlots entries ~ (entries.lookup guid).toList ++ entrySlots (entries.erase guid) := by
  by_cases hmem : guid ∈ entries
  · obtain ⟨slot, l₁, l₂, -, hentries, herase⟩ := exists_of_kerase hmem
    have hlookup : entries.lookup guid = some slot :=
      AList.mem_lookup_iff.mpr (by rw [hentries]; simp)
    have herase' : (entries.erase guid).entries = l₁ ++ l₂ := herase
    rw [hlookup, entrySlots, entrySlots, hentries, herase', map_append, map_append]
    exact perm_middle
  · have hkerase : (entries.erase guid).entries = entries.entries :=
      kerase_of_notMem_keys hmem
    rw [AList.lookup_eq_none.mpr hmem, entrySlots, entrySlots, hkerase]
    rfl

variable {entries : Entries}

lemma mem_entrySlots {slot : ℕ} :
    slot ∈ entrySlots entries ↔ ∃ guid, entries.lookup guid = some slot := by
  rw [entrySlots, List.mem_map]
  constructor
  · rintro ⟨⟨guid, s⟩, hmem, rfl⟩
    exact ⟨guid, AList.mem_lookup_iff.mpr hmem⟩
  · rintro ⟨guid, hlookup⟩
    exact ⟨⟨guid, slot⟩, AList.mem_lookup_iff.mp hlookup, rfl⟩

/-- No two blobs lie in one slot. -/
def OneEach (map : SlotMap) : Prop :=
  ∀ guid guid' slot, map guid = some slot → map guid' = some slot → guid = guid'

lemma nodup_entrySlots (h : OneEach entries.lookup) : (entrySlots entries).Nodup := by
  refine List.Nodup.map_on (fun x hx y hy heq => ?_) entries.nodupKeys.nodup
  have hguid : x.1 = y.1 :=
    h x.1 y.1 x.2 (AList.mem_lookup_iff.mpr hx) (by rw [heq]; exact AList.mem_lookup_iff.mpr hy)
  cases x
  cases y
  simp only at hguid heq
  rw [hguid, heq]

lemma oneEach_of_nodup (h : (entrySlots entries).Nodup) : OneEach entries.lookup := by
  intro guid guid' slot hguid hguid'
  have heq := inj_on_of_nodup_map h (AList.mem_lookup_iff.mp hguid)
    (AList.mem_lookup_iff.mp hguid') rfl
  exact congrArg Sigma.fst heq

/-! ## Every slot has one use -/

namespace Manifest

/-- The slots of blobs, those that wait for a flush, and the reusable ones. -/
def slots (m : Manifest) : List ℕ := entrySlots m.entries ++ m.pendingFree ++ m.reusable.slots

/-- With the slots that a write under way has reserved, no slot has two uses. -/
structure Sound (m : Manifest) (reserved : List ℕ) : Prop where
  nodup : (reserved ++ m.slots).Nodup
  below : ∀ slot ∈ reserved ++ m.slots, slot < m.nextSlot

variable {m m' : Manifest} {reserved reserved' : List ℕ}

lemma Sound.of_perm (h : m.Sound reserved) (hnext : m'.nextSlot = m.nextSlot)
    (hperm : reserved' ++ m'.slots ~ reserved ++ m.slots) : m'.Sound reserved' :=
  ⟨hperm.nodup_iff.mpr h.nodup, fun slot hslot => hnext ▸ h.below slot (hperm.mem_iff.mp hslot)⟩

lemma Sound.oneEach (h : m.Sound reserved) : OneEach m.entries.lookup := by
  have hnodup := (nodup_append.mp h.nodup).2.1
  rw [Manifest.slots, append_assoc] at hnodup
  exact oneEach_of_nodup (nodup_append.mp hnodup).1

lemma Sound.entry_lt {guid : Guid} {slot : ℕ} (h : m.Sound reserved)
    (hslot : m.entries.lookup guid = some slot) : slot < m.nextSlot := by
  refine h.below slot (mem_append_right _ ?_)
  rw [Manifest.slots, append_assoc]
  exact mem_append_left _ (mem_entrySlots.mpr ⟨guid, hslot⟩)

lemma allocateSlot_sound (h : m.Sound reserved) :
    m.allocateSlot.2.Sound (m.allocateSlot.1 :: reserved) := by
  unfold allocateSlot
  cases hpop : m.reusable.pop with
  | some popped =>
    have hslots := ReusableSlots.pop_spec hpop
    refine h.of_perm rfl (perm_iff_count.mpr fun slot => ?_)
    have hcount := hslots.count_eq slot
    simp only [slots, count_append, count_cons] at hcount ⊢
    omega
  | none =>
    refine ⟨nodup_cons.mpr ⟨fun hmem => ?_, h.nodup⟩, fun slot hslot => ?_⟩
    · exact lt_irrefl _ (h.below _ hmem)
    · rcases mem_cons.mp hslot with rfl | hmem
      · exact Nat.lt_succ_self _
      · exact (h.below slot hmem).trans (Nat.lt_succ_self _)

lemma allocateSlot_frame (m : Manifest) :
    m.allocateSlot.2.entries = m.entries ∧ m.allocateSlot.2.pendingFree = m.pendingFree ∧
      m.allocateSlot.2.pendingLog = m.pendingLog ∧ m.allocateSlot.2.logBytes = m.logBytes := by
  unfold allocateSlot
  cases m.reusable.pop with
  | some popped | none => exact ⟨rfl, rfl, rfl, rfl⟩

lemma reserveWriteEntries_frame {α : Type} (writes : List α) (m : Manifest) :
    (reserveWriteEntries writes m).2.entries = m.entries ∧
      (reserveWriteEntries writes m).2.pendingFree = m.pendingFree ∧
      (reserveWriteEntries writes m).2.pendingLog = m.pendingLog ∧
      (reserveWriteEntries writes m).2.logBytes = m.logBytes := by
  induction writes generalizing m with
  | nil => exact ⟨rfl, rfl, rfl, rfl⟩
  | cons write writes ih =>
    obtain ⟨hentries, hfree, hlog, hbytes⟩ := ih m.allocateSlot.2
    obtain ⟨hentries', hfree', hlog', hbytes'⟩ := m.allocateSlot_frame
    exact ⟨hentries.trans hentries', hfree.trans hfree', hlog.trans hlog', hbytes.trans hbytes'⟩

lemma reserveWriteEntries_writes {α : Type} (writes : List α) (m : Manifest) :
    (reserveWriteEntries writes m).1.map Prod.fst = writes := by
  induction writes generalizing m with
  | nil => rfl
  | cons write writes ih => exact congrArg (write :: ·) (ih _)

lemma reserveWriteEntries_sound {α : Type} {writes : List α} (h : m.Sound reserved) :
    (reserveWriteEntries writes m).2.Sound
      ((reserveWriteEntries writes m).1.map Prod.snd ++ reserved) := by
  induction writes generalizing m reserved with
  | nil => exact h
  | cons write writes ih =>
    refine (ih (allocateSlot_sound h)).of_perm rfl ?_
    exact (perm_middle.append_right _).symm

lemma publishWriteEntry_sound {guid : Guid} {slot : ℕ} (h : m.Sound (slot :: reserved)) :
    (m.publishWriteEntry guid slot).Sound reserved := by
  refine h.of_perm rfl (perm_iff_count.mpr fun s => ?_)
  have hcount := (entrySlots_erase m.entries guid).count_eq s
  simp only [slots, publishWriteEntry, entrySlots_insert, count_append, count_cons]
    at hcount ⊢
  omega

lemma deleteEntry_sound (h : m.Sound reserved) (guid : Guid) :
    (m.deleteEntry guid).Sound reserved := by
  unfold deleteEntry
  cases hlookup : m.entries.lookup guid with
  | none => exact h
  | some slot =>
    refine h.of_perm rfl (perm_iff_count.mpr fun s => ?_)
    have hcount := (entrySlots_erase m.entries guid).count_eq s
    rw [hlookup] at hcount
    simp only [slots, count_append, Option.toList_some] at hcount ⊢
    omega

lemma publishPendingFreeSlots_sound (h : m.Sound reserved) :
    m.publishPendingFreeSlots.Sound reserved := by
  refine h.of_perm rfl (perm_iff_count.mpr fun s => ?_)
  have hcount := (m.reusable.appendSlots_spec m.pendingFree).count_eq s
  simp only [slots, publishPendingFreeSlots, count_append, count_nil] at hcount ⊢
  omega

/-- Trimming lowers the high water over reusable slots only. -/
lemma trim_sound (h : m.Sound []) :
    Sound { m with
        reusable := (m.reusable.trimTrailing m.nextSlot).1
        nextSlot := (m.reusable.trimTrailing m.nextSlot).2 } [] ∧
      (m.reusable.trimTrailing m.nextSlot).2 ≤ m.nextSlot := by
  have hnodup : (entrySlots m.entries ++ m.pendingFree ++ m.reusable.slots).Nodup := h.nodup
  have hbelow : ∀ slot ∈ entrySlots m.entries ++ m.pendingFree ++ m.reusable.slots,
      slot < m.nextSlot := h.below
  obtain ⟨hused, hfree, hdisjoint⟩ := nodup_append.mp hnodup
  have ht := ReusableSlots.trimTrailing_spec hfree
    (fun slot hslot => hbelow slot (mem_append_right _ hslot))
  set out := m.reusable.trimTrailing m.nextSlot
  refine ⟨⟨?_, fun slot hslot => ?_⟩, ht.le⟩
  · change ((entrySlots m.entries ++ m.pendingFree) ++ out.1.slots).Nodup
    refine nodup_append.mpr ⟨hused, ht.nodup, fun a ha b hb => ?_⟩
    exact hdisjoint a ha b (ht.subset b hb)
  · change slot ∈ (entrySlots m.entries ++ m.pendingFree) ++ out.1.slots at hslot
    rcases mem_append.mp hslot with hmem | hmem
    · refine ht.keeps slot (hbelow slot (mem_append_left _ hmem)) (fun hfreed => ?_)
      exact hdisjoint slot hmem slot hfreed rfl
    · exact ht.below slot hmem

lemma releaseReservedSlots_sound (h : m.Sound reserved) :
    (m.releaseReservedSlots reserved).Sound [] ∧
      (m.releaseReservedSlots reserved).nextSlot ≤ m.nextSlot := by
  unfold releaseReservedSlots
  by_cases hnil : reserved = []
  · rw [if_pos hnil]
    exact ⟨hnil ▸ h, le_refl _⟩
  · rw [if_neg hnil]
    have happended : Sound { m with reusable := m.reusable.appendSlots reserved } [] := by
      refine h.of_perm rfl (perm_iff_count.mpr fun s => ?_)
      have hcount := (m.reusable.appendSlots_spec reserved).count_eq s
      simp only [slots, count_append, count_nil] at hcount ⊢
      omega
    exact trim_sound happended

end Manifest

/-! ## Opening -/

lemma length_encodeEntry (entry : (_ : Guid) × ℕ) : (encodeEntry entry).length = 24 := by
  rw [encodeEntry, length_append, entry.1.2, length_bytes]

lemma parseEntries_spec {l : List ((_ : Guid) × ℕ)} (hfits : ∀ entry ∈ l, entry.2 < 2 ^ 64)
    (hkeys : l.NodupKeys) (hnew : ∀ entry ∈ l, entry.1 ∉ entries) (used : List ℕ)
    (rest : List Byte) :
    ∃ entries', parseEntries l.length (l.flatMap encodeEntry ++ rest) entries used =
        .ok (entries', used ++ l.map Sigma.snd) ∧
      ∀ guid, entries'.lookup guid = (List.dlookup guid l).or (entries.lookup guid) := by
  induction l generalizing entries used with
  | nil => exact ⟨entries, by simp [parseEntries], fun guid => by simp⟩
  | cons entry l ih =>
    obtain ⟨guid, slot⟩ := entry
    obtain ⟨hguid, hkeys'⟩ := nodupKeys_cons.mp hkeys
    have hbuf : (⟨guid, slot⟩ :: l).flatMap encodeEntry ++ rest =
        guid.val ++ (bytes 8 slot ++ (l.flatMap encodeEntry ++ rest)) := by
      simp [encodeEntry]
    have hlen : 24 ≤ ((⟨guid, slot⟩ :: l).flatMap encodeEntry ++ rest).length := by
      rw [flatMap_cons, append_assoc, length_append, length_encodeEntry]
      omega
    have htake : ((⟨guid, slot⟩ :: l).flatMap encodeEntry ++ rest).take 16 = guid.val := by
      rw [hbuf]
      exact take_left' guid.2
    have hslot : value ((((⟨guid, slot⟩ :: l).flatMap encodeEntry ++ rest).drop 16).take 8) =
        slot := by
      rw [hbuf, drop_left' guid.2, take_left' (length_bytes _ _)]
      exact value_bytes_of_lt (lt_of_lt_of_eq (hfits _ mem_cons_self) (by norm_num))
    have hdrop : ((⟨guid, slot⟩ :: l).flatMap encodeEntry ++ rest).drop 24 =
        l.flatMap encodeEntry ++ rest := by
      rw [flatMap_cons, append_assoc]
      exact drop_left' (length_encodeEntry _)
    have hfresh : guid ∉ entries := hnew _ mem_cons_self
    have hnew' : ∀ entry ∈ l, entry.1 ∉ entries.insert guid slot := by
      intro entry hentry
      rw [AList.mem_insert, not_or]
      have hkey : entry.1 ∈ l.keys := mem_keys_of_mem hentry
      exact ⟨fun heq => hguid (heq ▸ hkey), hnew entry (mem_cons_of_mem _ hentry)⟩
    obtain ⟨entries', hparse, hlookup⟩ := ih
      (forall_mem_cons.mp hfits).2 hkeys' hnew' (used ++ [slot])
    refine ⟨entries', ?_, fun k => ?_⟩
    · rw [length_cons, parseEntries, dif_pos hlen]
      simp only [htake, hslot, hdrop, if_neg hfresh, hparse]
      simp
    · rw [hlookup]
      by_cases hk : k = guid
      · subst hk
        rw [AList.lookup_insert, dlookup_cons_eq, dlookup_eq_none.mpr hguid]
        rfl
      · rw [AList.lookup_insert_ne hk, dlookup_cons_ne _ _ hk]

lemma parseSnapshot_encode {nextSlot : ℕ} (hone : OneEach entries.lookup)
    (hbelow : ∀ guid slot, entries.lookup guid = some slot → slot < nextSlot)
    (hnext : nextSlot < 2 ^ 64) (hcount : entries.entries.length < 2 ^ 32) :
    ∃ entries', parseSnapshot (encodeSnapshot entries nextSlot) = .ok (entries', nextSlot) ∧
      entries'.lookup = entries.lookup := by
  have hslots : ∀ slot ∈ entrySlots entries, slot < nextSlot := by
    intro slot hslot
    obtain ⟨guid, hlookup⟩ := mem_entrySlots.mp hslot
    exact hbelow guid slot hlookup
  obtain ⟨entries', hparse, hlookup⟩ := @parseEntries_spec ∅ entries.entries
    (fun entry hentry => (hslots _ (List.mem_map_of_mem hentry)).trans hnext) entries.nodupKeys
    (fun entry _ => AList.notMem_empty _) [] []
  obtain ⟨free, hfree, -⟩ := ReusableSlots.reconstruct_spec (nodup_entrySlots hone) hslots
  have hsplit : encodeSnapshot entries nextSlot = snapshotMagic ++ (bytes 2 manifestVersion ++
      (bytes 4 entries.entries.length ++ ([0, 0] ++ (bytes 8 nextSlot ++
        entries.entries.flatMap encodeEntry)))) := by
    simp [encodeSnapshot]
  have hmagic : (encodeSnapshot entries nextSlot).take 8 = snapshotMagic := by
    rw [hsplit]
    exact take_left' rfl
  have hdrop : (encodeSnapshot entries nextSlot).drop 8 = bytes 2 manifestVersion ++
      (bytes 4 entries.entries.length ++ ([0, 0] ++ (bytes 8 nextSlot ++
        entries.entries.flatMap encodeEntry))) := by
    rw [hsplit]
    exact drop_left' rfl
  have hversion : value (((encodeSnapshot entries nextSlot).drop 8).take 2) = manifestVersion := by
    rw [hdrop, take_left' (length_bytes _ _)]
    rfl
  have hdrop' : (encodeSnapshot entries nextSlot).drop 10 = bytes 4 entries.entries.length ++
      ([0, 0] ++ (bytes 8 nextSlot ++ entries.entries.flatMap encodeEntry)) := by
    rw [← drop_drop (i := 2) (j := 8), hdrop]
    exact drop_left' (length_bytes _ _)
  have hlength : value (((encodeSnapshot entries nextSlot).drop 10).take 4) =
      entries.entries.length := by
    rw [hdrop', take_left' (length_bytes _ _)]
    exact value_bytes_of_lt (lt_of_lt_of_eq hcount (by norm_num))
  have hdrop'' : (encodeSnapshot entries nextSlot).drop 16 =
      bytes 8 nextSlot ++ entries.entries.flatMap encodeEntry := by
    rw [← drop_drop (i := 6) (j := 10), hdrop', ← append_assoc]
    exact drop_left' (by simp)
  have hnextSlot : value (((encodeSnapshot entries nextSlot).drop 16).take 8) = nextSlot := by
    rw [hdrop'', take_left' (length_bytes _ _)]
    exact value_bytes_of_lt (lt_of_lt_of_eq hnext (by norm_num))
  have hbody : (encodeSnapshot entries nextSlot).drop 24 =
      entries.entries.flatMap encodeEntry ++ [] := by
    rw [← drop_drop (i := 8) (j := 16), hdrop'', append_nil]
    exact drop_left' (length_bytes _ _)
  have hlong : ¬ (encodeSnapshot entries nextSlot).length < 24 := by
    rw [hsplit]
    simp [snapshotMagic]
    omega
  refine ⟨entries', ?_, funext fun guid => (hlookup guid).trans (by simp [AList.lookup])⟩
  rw [nil_append] at hparse
  simp only [parseSnapshot, if_neg hlong, hmagic, ne_eq, not_true_eq_false, if_false, hversion,
    false_and, hlength, hnextSlot, hbody, hparse]
  rw [show List.map Sigma.snd entries.entries = entrySlots entries from rfl, hfree]

/-- What opening finds: the changes of the whole frames of the log, made to the snapshot. -/
theorem load_spec {crc : List Byte → UInt32} {nextSlot : ℕ} {ds : List ManifestDelta}
    {tail : List Byte} (hone : OneEach entries.lookup)
    (hbelow : ∀ guid slot, entries.lookup guid = some slot → slot < nextSlot)
    (hnext : nextSlot < 2 ^ 64) (hcount : entries.entries.length < 2 ^ 32)
    (hfits : ∀ d ∈ ds, d.Fits) (hnc : NoConflict ds) (htail : logHead crc tail = .torn)
    (hone' : OneEach (applyDeltas entries.lookup ds)) :
    ∃ m, load crc (encodeSnapshot entries nextSlot)
        (ds.flatMap (encodeManifestDelta crc) ++ tail) = .ok m ∧
      m.entries.lookup = applyDeltas entries.lookup ds ∧
      m.nextSlot = ds.foldl highWater nextSlot ∧ m.Sound [] ∧ m.pendingFree = [] ∧
      m.pendingLog = [] ∧ m.logBytes = (ds.flatMap (encodeManifestDelta crc)).length := by
  obtain ⟨parsed, hparse, hparsed⟩ := parseSnapshot_encode hone hbelow hnext hcount
  obtain ⟨r, hreplay, hhigh, hlookup⟩ := replayLog_spec hfits hnc htail parsed nextSlot
  have hmap : r.entries.lookup = applyDeltas entries.lookup ds := by rw [hlookup, ← hparsed]
  have hnodup : (entrySlots r.entries).Nodup := nodup_entrySlots (by rw [hmap]; exact hone')
  have hslots : ∀ slot ∈ entrySlots r.entries, slot < r.nextSlot := by
    intro slot hslot
    obtain ⟨guid, hguid⟩ := mem_entrySlots.mp hslot
    rw [hhigh]
    rcases mem_of_applyDeltas ((congrFun hmap guid).symm.trans hguid) with hold | hset
    · exact lt_of_lt_of_le (hbelow guid slot hold) (le_highWater _ _)
    · exact slot_lt_highWater hset
  obtain ⟨free, hfree, hall⟩ := ReusableSlots.reconstruct_spec hnodup hslots
  refine ⟨⟨r.entries, r.nextSlot, free, [], [], (ds.flatMap (encodeManifestDelta crc)).length⟩,
    by simp only [load, hparse, hreplay, hfree], hmap, hhigh, ?_, rfl, rfl, rfl⟩
  have hperm : [] ++ Manifest.slots ⟨r.entries, r.nextSlot, free, [], [],
      (ds.flatMap (encodeManifestDelta crc)).length⟩ ~ List.range r.nextSlot := by
    simp only [Manifest.slots, append_nil, nil_append]
    exact perm_append_comm.trans hall
  exact ⟨hperm.nodup_iff.mpr nodup_range, fun slot hslot =>
    mem_range.mp (hperm.mem_iff.mp hslot)⟩

end Store
end Holt
