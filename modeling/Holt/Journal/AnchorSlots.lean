import Holt.Journal.AttachedSafety

/-!
# The anchor slots

Calls of `persist_checkpoint_anchor` on a WAL of the current format, with crashes and reopens.  A
crash leaves bytes that are no slot, or the old or the new ones, in the slot being written.  The
header can be read after each, and it has the anchor of the last call that returned or of one of
the calls that crashes have interrupted since (`anchor_slots_survive`).  Of two such calls it may
have the first, when the second has not got through its first slot (`interrupted_twice`).
-/

namespace Holt
namespace Journal

open List Transition

/-- A writer with its file, and what its callers have seen. -/
structure AnchorWriter where
  journal : AttachedJournal
  /-- The anchor of the last call that returned `Ok`. -/
  returned : Option JournalAnchor
  /-- The anchors of the calls that crashes have interrupted since. -/
  interrupted : List JournalAnchor

inductive AnchorAction
  /-- `persist_checkpoint_anchor`, up to its first write. -/
  | persist (anchor : JournalAnchor)
  /-- `persist_anchor_generation`. -/
  | writeSlot
  | returnOk
  /-- A crash with what it leaves in the slot being written, and the reopening. -/
  | crash (torn : Option (List Byte))

namespace AnchorWriter

def created : AnchorWriter := ⟨.created, none, []⟩

/-- The anchor of the call in progress. -/
def calling (w : AnchorWriter) : List JournalAnchor := (w.journal.persist.map Persist.anchor).toList

end AnchorWriter

def anchorStep (crc : List Byte → UInt32) (treeId createdAt : UInt64) (w : AnchorWriter) :
    AnchorAction → Option AnchorWriter
  | .persist anchor =>
    if w.journal.persist.isNone then
      -- without generations left the call returns an error before it writes
      some { w with journal := (w.journal.beginPersist anchor false).getD w.journal }
    else none
  | .writeSlot => (attachedStep crc treeId createdAt w.journal .writeSlot).map
    (fun journal => { w with journal := journal })
  | .returnOk =>
    match w.journal.persist with
    | some p =>
      if p.left = 0 then some ⟨{ w.journal with persist := none }, some p.anchor, []⟩ else none
    | none => none
  | .crash torn =>
    if ∀ slot ∈ torn, w.journal.TornSlot crc slot then
      match decodeFileHeader crc (w.journal.image crc treeId createdAt torn 0) with
      | .ok header => some { w with
          journal := { torn.elim w.journal w.journal.setSlot with
            anchor := header.checkpointAnchor
            generation := header.anchorGeneration
            persist := none }
          interrupted := w.interrupted ++ w.calling }
      | .error _ => none
    else none

section Invariant

variable {crc : List Byte → UInt32} {s : AttachedJournal} {w w' : AnchorWriter} {a : JournalAnchor}

/-- Both slots have the anchor. -/
def BothSlots (crc : List Byte → UInt32) (s : AttachedJournal) (a : JournalAnchor) : Prop :=
  (∃ g, decodeAnchorSlot crc s.slotA = some (a, g)) ∧
    ∃ g, decodeAnchorSlot crc s.slotB = some (a, g)

structure AnchorInv (crc : List Byte → UInt32) (w : AnchorWriter) : Prop where
  slots : SlotsOk crc w.journal
  room : ∀ p, w.journal.persist = some p → w.journal.generation.toNat + p.left < 2 ^ 64
  known : w.journal.anchor = w.returned ∨
    ∃ a ∈ w.interrupted ++ w.calling, w.journal.anchor = some a
  /-- Before its last generation a call has the anchor in the current slot. -/
  half : ∀ p, w.journal.persist = some p → p.left ≤ 1 → w.journal.anchor = some p.anchor
  whole : ∀ p, w.journal.persist = some p → p.left = 0 → BothSlots crc w.journal p.anchor
  settled : w.journal.persist = none → w.interrupted = [] → ∀ a, w.returned = some a →
    BothSlots crc w.journal a

lemma anchorInv_created (crc : List Byte → UInt32) : AnchorInv crc .created :=
  ⟨slotsOk_created, nofun, .inl rfl, nofun, nofun, nofun⟩

/-- A second generation of the current anchor goes to the other slot. -/
lemma SlotsOk.both_withGeneration (h : SlotsOk crc s) (hroom : s.generation.toNat + 1 < 2 ^ 64)
    (ha : s.anchor = some a) : BothSlots crc (s.withGeneration crc a) a := by
  have hgen : s.generation ≠ 0 := by
    intro hzero
    rw [(h.fresh hzero).1] at ha
    cases ha
  obtain ⟨b, hb, hcurrent, -⟩ := h.used hgen
  obtain rfl : b = a := Option.some.inj (hb.symm.trans ha)
  have hnew := decodeAnchorSlot_encode crc b (toNat_succ hroom).2
  unfold AttachedJournal.withGeneration AttachedJournal.setSlot
  by_cases hparity : s.generation.toNat % 2 = 0
  · rw [if_pos hparity] at hcurrent ⊢
    exact ⟨⟨_, hnew⟩, _, hcurrent⟩
  · rw [if_neg hparity] at hcurrent ⊢
    exact ⟨⟨_, hcurrent⟩, _, hnew⟩

/-- The header after a crash, and the slots it was read from. -/
lemma AnchorInv.reopens (inv : AnchorInv crc w) (treeId createdAt : UInt64)
    {torn : Option (List Byte)} (htorn : ∀ slot ∈ torn, w.journal.TornSlot crc slot) :
    ∃ anchor generation, decodeFileHeader crc (w.journal.image crc treeId createdAt torn 0) =
        .ok ⟨.current, treeId, createdAt, anchor, generation⟩ ∧
      (anchor = w.returned ∨ ∃ a ∈ w.interrupted ++ w.calling, anchor = some a) ∧
      SlotsOk crc { torn.elim w.journal w.journal.setSlot with
        anchor := anchor, generation := generation } := by
  obtain ⟨anchor, generation, hcase, hslots⟩ := inv.slots.crash htorn inv.room
  have hdecode := hslots.decode
  dsimp only at hdecode
  refine ⟨anchor, generation, ?_, ?_, hslots⟩
  · rw [AttachedJournal.image, decodeFileHeader_page crc treeId createdAt hslots.lengthA
      hslots.lengthB, hdecode]
    rfl
  · rcases hcase with rfl | ⟨p, hp, rfl⟩
    · exact inv.known
    · exact .inr ⟨p.anchor, mem_append_right _ (by simp [AnchorWriter.calling, hp]), rfl⟩

lemma AnchorInv.step (inv : AnchorInv crc w) {treeId createdAt : UInt64} {act : AnchorAction}
    (h : anchorStep crc treeId createdAt w act = some w') : AnchorInv crc w' := by
  cases act with
  | persist anchor =>
    obtain ⟨hnone, rfl⟩ := guard_eq_some.mp h
    rw [Option.isNone_iff_eq_none] at hnone
    cases hbegin : w.journal.beginPersist anchor false with
    | none => exact inv
    | some journal =>
      obtain ⟨hroom, rfl⟩ := guard_eq_some.mp hbegin
      refine ⟨{ inv.slots with }, ?_, ?_, ?_, ?_, by simp⟩
      · rintro p ⟨⟩
        exact hroom
      · rcases inv.known with hold | ⟨a, ha, hanchor⟩
        · exact .inl hold
        · rw [AnchorWriter.calling, hnone] at ha
          exact .inr ⟨a, mem_append_left _ (by simpa using ha), hanchor⟩
      · rintro p ⟨⟩ hleft
        dsimp only at hleft
        split_ifs at hleft with hsame
        · exact hsame
        · exact absurd hleft (by simp)
      · rintro p ⟨⟩ hleft
        dsimp only at hleft
        split_ifs at hleft
  | writeSlot =>
    obtain ⟨journal, hstep, rfl⟩ := Option.map_eq_some_iff.mp h
    cases hp : w.journal.persist with
    | none => simp [attachedStep, hp] at hstep
    | some p =>
      simp only [attachedStep, hp] at hstep
      obtain ⟨hpos, rfl⟩ := guard_eq_some.mp hstep
      have hroom := inv.room p hp
      have hslots := inv.slots.write (by omega) p.anchor
      refine ⟨{ hslots with }, ?_, ?_, ?_, ?_, by simp⟩
      · rintro q ⟨⟩
        obtain ⟨hnat, -⟩ := toNat_succ (g := w.journal.generation) (by omega)
        dsimp only
        omega
      · exact .inr ⟨p.anchor, mem_append_right _ mem_cons_self, rfl⟩
      · rintro q ⟨⟩ -
        rfl
      · rintro q ⟨⟩ hleft
        have hlast : p.left ≤ 1 := Nat.sub_eq_zero_iff_le.mp hleft
        exact inv.slots.both_withGeneration (by omega) (inv.half p hp hlast)
  | returnOk =>
    cases hp : w.journal.persist with
    | none => simp [anchorStep, hp] at h
    | some p =>
      simp only [anchorStep, hp] at h
      obtain ⟨hleft, rfl⟩ := guard_eq_some.mp h
      refine ⟨{ inv.slots with }, by simp,
        .inl (inv.half p hp (by omega)), by simp, by simp, ?_⟩
      rintro - - a ⟨⟩
      exact inv.whole p hp hleft
  | crash torn =>
    obtain ⟨htorn, h⟩ := Option.ite_none_right_eq_some.mp h
    obtain ⟨anchor, generation, hheader, hcase, hslots⟩ := inv.reopens treeId createdAt htorn
    rw [hheader] at h
    cases h
    refine ⟨{ hslots with }, by simp, ?_, by simp, by simp,
      fun _ hnil a ha => ?_⟩
    · simpa [AnchorWriter.calling] using hcase
    · -- no call was interrupted, so no slot was being written
      obtain ⟨hnone, hcalling⟩ := append_eq_nil_iff.mp hnil
      have hidle : w.journal.persist = none := by
        simpa [AnchorWriter.calling] using hcalling
      cases torn with
      | none => exact inv.settled hidle hnone a ha
      | some slot =>
        obtain ⟨p, hp, -⟩ := htorn slot rfl
        rw [hidle] at hp
        cases hp

end Invariant

/-- **Anchor slots.**  In every state of every run, whatever a crash leaves in the slot being
written, the header can be read, and its anchor is that of the last call that returned `Ok` or of
a call interrupted since.  When a call has returned, both slots have its anchor, so the header
keeps it if one slot is destroyed. -/
theorem anchor_slots_survive (crc : List Byte → UInt32) (treeId createdAt : UInt64)
    {acts : List AnchorAction} {w : AnchorWriter}
    (hrun : FreePath (anchorStep crc treeId createdAt) .created acts w) :
    (∀ torn, (∀ slot ∈ torn, w.journal.TornSlot crc slot) → ∃ header,
      decodeFileHeader crc (w.journal.image crc treeId createdAt torn 0) = .ok header ∧
      (header.checkpointAnchor = w.returned ∨
        ∃ a ∈ w.interrupted ++ w.calling, header.checkpointAnchor = some a)) ∧
    (w.journal.persist = none → w.interrupted = [] → ∀ a, w.returned = some a →
      BothSlots crc w.journal a ∧
      ∀ slot, slot.length = anchorSlotSize → decodeAnchorSlot crc slot = none →
        ∀ page ∈ [headerPage treeId createdAt slot w.journal.slotB,
          headerPage treeId createdAt w.journal.slotA slot],
        ∃ header, decodeFileHeader crc page = .ok header ∧ header.checkpointAnchor = some a) := by
  have inv : AnchorInv crc w := hrun.invariant (fun _ _ _ hi _ h => hi.step h)
    (anchorInv_created crc)
  refine ⟨fun torn htorn => ?_, fun hidle hnil a ha => ?_⟩
  · obtain ⟨anchor, generation, hheader, hcase, -⟩ := inv.reopens treeId createdAt htorn
    exact ⟨_, hheader, hcase⟩
  · obtain ⟨⟨gA, hA⟩, gB, hB⟩ := inv.settled hidle hnil a ha
    refine ⟨⟨⟨gA, hA⟩, gB, hB⟩, fun slot hlen hslot page hpage => ?_⟩
    rw [← append_nil page]
    rcases mem_pair.mp hpage with rfl | rfl
    · rw [decodeFileHeader_page crc treeId createdAt hlen inv.slots.lengthB, decodeCheckpointAnchor,
        hslot, hB]
      exact ⟨_, rfl, rfl⟩
    · rw [decodeFileHeader_page crc treeId createdAt inv.slots.lengthA hlen, decodeCheckpointAnchor,
        hA, hslot]
      exact ⟨_, rfl, rfl⟩

lemma length_zeroDigest : (List.replicate 32 (0 : Byte)).length = 32 := rfl

/-- Anchors of a stream. -/
def anchorAt (n : UInt64) : JournalAnchor := ⟨n, ⟨List.replicate 32 0, length_zeroDigest⟩⟩

/-- What a crash leaves in the slots below. -/
def tornSlot : List Byte := List.replicate 128 0

/-- A call returns, a crash interrupts the next in its second slot, and a third begins. -/
def twoInterrupted : List AnchorAction :=
  [.persist (anchorAt 1), .writeSlot, .writeSlot, .returnOk, .persist (anchorAt 2), .writeSlot,
    .crash (some tornSlot), .persist (anchorAt 3)]

/-- A crash in the third call's first slot: the header has the second call's anchor, which is
neither that of the call that returned nor that of the interrupted one. -/
theorem interrupted_twice : ∃ w header,
    FreePath (anchorStep (fun _ => 7) 0 0) .created twoInterrupted w ∧
      w.returned = some (anchorAt 1) ∧ w.calling = [anchorAt 3] ∧
      w.journal.TornSlot (fun _ => 7) tornSlot ∧
      decodeFileHeader (fun _ => 7) (w.journal.image (fun _ => 7) 0 0 (some tornSlot) 0) =
        .ok header ∧
      header.checkpointAnchor = some (anchorAt 2) := by
  obtain ⟨w, -, hrun, hreturned, hcalling, htorn, hanchor⟩ := path_of_guardedTo
    (show guardedTo (anchorStep (fun _ => 7) 0 0) (fun _ _ => True) (fun w =>
      w.returned = some (anchorAt 1) ∧ w.calling = [anchorAt 3] ∧
        w.journal.TornSlot (fun _ => 7) tornSlot ∧
        (decodeFileHeader (fun _ => 7) (w.journal.image (fun _ => 7) 0 0 (some tornSlot)
          0)).toOption.bind FileHeader.checkpointAnchor = some (anchorAt 2))
      .created twoInterrupted = true by decide +kernel)
  cases hheader : decodeFileHeader (fun _ => 7)
      (w.journal.image (fun _ => 7) 0 0 (some tornSlot) 0) with
  | error e => simp [hheader, Except.toOption] at hanchor
  | ok header =>
    rw [hheader] at hanchor
    exact ⟨w, header, hrun, hreturned, hcalling, htorn, hheader, hanchor⟩

/-- The anchor of an interrupted call is there. -/
theorem anchor_slots_survive_twoInterrupted : ∃ w,
    FreePath (anchorStep (fun _ => 7) 0 0) .created twoInterrupted w ∧ ∃ header,
      decodeFileHeader (fun _ => 7) (w.journal.image (fun _ => 7) 0 0 (some tornSlot) 0) =
        .ok header ∧
      (header.checkpointAnchor = w.returned ∨
        ∃ a ∈ w.interrupted ++ w.calling, header.checkpointAnchor = some a) := by
  obtain ⟨w, -, hrun, htorn⟩ := path_of_guardedTo (show guardedTo (anchorStep (fun _ => 7) 0 0)
    (fun _ _ => True) (fun w => w.journal.TornSlot (fun _ => 7) tornSlot) .created twoInterrupted =
      true by decide +kernel)
  refine ⟨w, hrun, (anchor_slots_survive (fun _ => 7) 0 0 hrun).1 (some tornSlot) ?_⟩
  rintro slot ⟨⟩
  exact htorn

end Journal
end Holt
