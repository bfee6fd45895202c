import Holt.Journal.AttachedJournal

/-!
# Crashes of an attached journal

`attached_reopens`: after any run of initialisations, submits and checkpoints, with crashes and
reopenings in between, and one more crash at any step, the file is accepted again.

The argument has three parts.

* The slots (`SlotsOk`): the slot of the current generation is never the one that is written, so
  whatever a crash leaves of a write, the header says the old anchor or the new one.
* The chain (`Chain`): the records in the file are a chain of envelopes, and the anchor in the
  header is one of its positions.  What lies before it is covered by the checkpoint, what lies
  behind it is retained.  The validation takes any prefix of such a chain (`observes_covered`,
  `observes_retained`).
* The journal (`AttachedInv`): both hold in every reachable state, and the records before the
  anchor are synced.
-/

namespace Holt
namespace Journal

open List Option Layout LittleEndian Transition

/-! ## The slots -/

/-- The slots hold `anchor` under `generation`, and the slot that is written next does not count. -/
structure SlotsOk (crc : List Byte → UInt32) (s : AttachedJournal) : Prop where
  lengthA : s.slotA.length = anchorSlotSize
  lengthB : s.slotB.length = anchorSlotSize
  fresh : s.generation = 0 → s.anchor = none ∧ decodeAnchorSlot crc s.slotA = none ∧
    s.slotB = List.replicate 128 0
  used : s.generation ≠ 0 → ∃ a, s.anchor = some a ∧
    decodeAnchorSlot crc (if s.generation.toNat % 2 = 0 then s.slotB else s.slotA) =
      some (a, s.generation) ∧
    ∀ b g, decodeAnchorSlot crc s.nextSlot = some (b, g) →
      g.toNat < s.generation.toNat

section Slots

variable {crc : List Byte → UInt32} {s : AttachedJournal}

lemma decodeAnchorSlot_zeros : decodeAnchorSlot crc (List.replicate 128 0) = none := by
  have hmagic : value (slice (List.replicate 128 0) 0 4) ≠ anchorSlotMagic := by decide
  have hlen : (List.replicate 128 (0 : Byte)).length = anchorSlotSize := length_replicate
  rw [decodeAnchorSlot, if_neg (not_not.mpr hlen)]
  dsimp only
  rw [if_pos (.inl hmagic)]

lemma slotsOk_created : SlotsOk crc AttachedJournal.created where
  lengthA := length_replicate
  lengthB := length_replicate
  fresh _ := ⟨rfl, decodeAnchorSlot_zeros, rfl⟩
  used h := absurd rfl h

lemma SlotsOk.decode (h : SlotsOk crc s) :
    decodeCheckpointAnchor crc s.slotA s.slotB = .ok (s.anchor, s.generation) := by
  by_cases hgen : s.generation = 0
  · obtain ⟨hanchor, hA, hB⟩ := h.fresh hgen
    have hzero : (List.replicate 128 (0 : Byte)).any (· ≠ 0) = false := by decide
    rw [decodeCheckpointAnchor, hA, hB, decodeAnchorSlot_zeros]
    dsimp only
    rw [if_neg (by rw [hzero]; simp), hanchor, hgen]
  · obtain ⟨a, hanchor, hcurrent, hnext⟩ := h.used hgen
    rw [AttachedJournal.nextSlot] at hnext
    rw [decodeCheckpointAnchor, hanchor]
    by_cases hparity : s.generation.toNat % 2 = 0
    · rw [if_pos hparity] at hcurrent hnext
      rw [hcurrent]
      cases hA : decodeAnchorSlot crc s.slotA with
      | none => rfl
      | some b =>
        have hlt := hnext b.1 b.2 hA
        dsimp only
        rw [if_neg (fun heq => hlt.ne (congrArg UInt64.toNat heq.1)),
          if_pos (UInt64.le_iff_toNat_le.mpr hlt.le)]
    · rw [if_neg hparity] at hcurrent hnext
      rw [hcurrent]
      cases hB : decodeAnchorSlot crc s.slotB with
      | none => rfl
      | some b =>
        have hlt := hnext b.1 b.2 hB
        dsimp only
        rw [if_neg (fun heq => hlt.ne' (congrArg UInt64.toNat heq.1)),
          if_neg (fun hle => absurd (UInt64.le_iff_toNat_le.mp hle) (not_le.mpr hlt))]

lemma SlotsOk.torn (h : SlotsOk crc s) {slot : List Byte} (hlen : slot.length = anchorSlotSize)
    (hslot : decodeAnchorSlot crc slot = none) : SlotsOk crc (s.setSlot slot) := by
  by_cases hparity : s.generation.toNat % 2 = 0
  · rw [AttachedJournal.setSlot, if_pos hparity]
    refine ⟨hlen, h.lengthB, fun hgen => ?_, fun hgen => ?_⟩
    · obtain ⟨hanchor, -, hB⟩ := h.fresh hgen
      exact ⟨hanchor, hslot, hB⟩
    · obtain ⟨a, hanchor, hcurrent, -⟩ := h.used hgen
      rw [if_pos hparity] at hcurrent
      refine ⟨a, hanchor, by rw [if_pos hparity]; exact hcurrent, fun b g hnext => ?_⟩
      simp only [AttachedJournal.nextSlot, if_pos hparity, hslot] at hnext
      cases hnext
  · rw [AttachedJournal.setSlot, if_neg hparity]
    have hgen : s.generation ≠ 0 := fun hzero => hparity (by rw [hzero]; rfl)
    refine ⟨h.lengthA, hlen, fun hzero => absurd hzero hgen, fun _ => ?_⟩
    obtain ⟨a, hanchor, hcurrent, -⟩ := h.used hgen
    rw [if_neg hparity] at hcurrent
    refine ⟨a, hanchor, by rw [if_neg hparity]; exact hcurrent, fun b g hnext => ?_⟩
    simp only [AttachedJournal.nextSlot, if_neg hparity, hslot] at hnext
    cases hnext

/-- The journal with the next generation of `anchor` in its slot. -/
def AttachedJournal.withGeneration (crc : List Byte → UInt32) (s : AttachedJournal)
    (anchor : JournalAnchor) : AttachedJournal :=
  { s.setSlot (encodeAnchorSlot crc anchor (s.generation + 1)) with
    anchor := some anchor
    generation := s.generation + 1 }

lemma toNat_succ {g : UInt64} (hroom : g.toNat + 1 < 2 ^ 64) :
    (g + 1).toNat = g.toNat + 1 ∧ g + 1 ≠ 0 := by
  have hnat : (g + 1).toNat = g.toNat + 1 := (UInt64.toNat_add g 1).trans (Nat.mod_eq_of_lt hroom)
  refine ⟨hnat, fun hzero => ?_⟩
  rw [hzero] at hnat
  simp at hnat

lemma SlotsOk.write (h : SlotsOk crc s) (hroom : s.generation.toNat + 1 < 2 ^ 64)
    (anchor : JournalAnchor) : SlotsOk crc (s.withGeneration crc anchor) := by
  obtain ⟨hnat, hne⟩ := toNat_succ hroom
  have hdecode := decodeAnchorSlot_encode crc anchor hne
  have hlen := length_encodeAnchorSlot crc anchor (s.generation + 1)
  -- the slot that keeps its content is the current one, or was never written
  have hold : ∀ b g, decodeAnchorSlot crc
      (if s.generation.toNat % 2 = 0 then s.slotB else s.slotA) = some (b, g) →
        g.toNat < (s.generation + 1).toNat := by
    intro b g hslot
    by_cases hgen : s.generation = 0
    · obtain ⟨-, -, hB⟩ := h.fresh hgen
      rw [hgen, if_pos (by decide), hB, decodeAnchorSlot_zeros] at hslot
      cases hslot
    · obtain ⟨a, -, hcurrent, -⟩ := h.used hgen
      rw [hcurrent, Option.some.injEq, Prod.mk.injEq] at hslot
      rw [hnat, ← hslot.2]
      omega
  by_cases hparity : s.generation.toNat % 2 = 0
  · have hnext : ¬ (s.generation + 1).toNat % 2 = 0 := by omega
    rw [if_pos hparity] at hold
    simp only [AttachedJournal.withGeneration, AttachedJournal.setSlot, if_pos hparity]
    refine ⟨hlen, h.lengthB, fun hzero => absurd hzero hne, fun _ => ⟨anchor, rfl, ?_, ?_⟩⟩
    · rw [if_neg hnext]
      exact hdecode
    · intro b g hslot
      simp only [AttachedJournal.nextSlot, if_neg hnext] at hslot
      exact hold b g hslot
  · have hnext : (s.generation + 1).toNat % 2 = 0 := by omega
    rw [if_neg hparity] at hold
    simp only [AttachedJournal.withGeneration, AttachedJournal.setSlot, if_neg hparity]
    refine ⟨h.lengthA, hlen, fun hzero => absurd hzero hne, fun _ => ⟨anchor, rfl, ?_, ?_⟩⟩
    · rw [if_pos hnext]
      exact hdecode
    · intro b g hslot
      simp only [AttachedJournal.nextSlot, if_pos hnext] at hslot
      exact hold b g hslot

/-- After a crash, the slots hold the anchor that they held, or the one that was being written. -/
lemma SlotsOk.crash (h : SlotsOk crc s) {torn : Option (List Byte)}
    (htorn : ∀ slot ∈ torn, s.TornSlot crc slot)
    (hroom : ∀ p, s.persist = some p → s.generation.toNat + p.left < 2 ^ 64) :
    ∃ anchor generation, (anchor = s.anchor ∨ ∃ p, s.persist = some p ∧ anchor = some p.anchor) ∧
      SlotsOk crc { torn.elim s s.setSlot with anchor := anchor, generation := generation } := by
  cases torn with
  | none => exact ⟨s.anchor, s.generation, .inl rfl, h⟩
  | some slot =>
    obtain ⟨p, hp, hleft, hlen, hslot⟩ := htorn slot rfl
    obtain hold | hnew | hnone := hslot
    · have hsame : s.setSlot slot = s := by
        rw [hold, AttachedJournal.setSlot, AttachedJournal.nextSlot]
        split_ifs <;> rfl
      refine ⟨s.anchor, s.generation, .inl rfl, ?_⟩
      simp only [elim_some, hsame]
      exact h
    · have hwrite := h.write (by have := hroom p hp; omega) p.anchor
      refine ⟨some p.anchor, s.generation + 1, .inr ⟨p, hp, rfl⟩, ?_⟩
      rw [hnew]
      exact hwrite
    · have hkeep := h.torn hlen hnone
      refine ⟨s.anchor, s.generation, .inl rfl, ?_⟩
      rw [s.setSlot_eq] at hkeep
      rw [elim_some, s.setSlot_eq]
      exact hkeep

end Slots

/-! ## Chains of envelopes -/

/-- The envelopes lead from one anchor to another. -/
def Chain : JournalAnchor → List JournalEnvelope → JournalAnchor → Prop
  | a, [], b => a = b
  | a, e :: es, b => e.previous = a ∧ Chain e.current es b

namespace Chain

variable {a b c : JournalAnchor} {es fs : List JournalEnvelope}

lemma nil (a : JournalAnchor) : Chain a [] a := rfl

lemma append (h : Chain a es b) (h' : Chain b fs c) : Chain a (es ++ fs) c := by
  induction es generalizing a with
  | nil =>
    obtain rfl : a = b := h
    exact h'
  | cons e es ih => exact ⟨h.1, ih h.2⟩

lemma split (h : Chain a (es ++ fs) c) : ∃ m, Chain a es m ∧ Chain m fs c := by
  induction es generalizing a with
  | nil => exact ⟨a, rfl, h⟩
  | cons e es ih =>
    obtain ⟨m, hes, hfs⟩ := ih h.2
    exact ⟨m, ⟨h.1, hes⟩, hfs⟩

lemma sequence_eq (h : Chain a es b) : b.sequence.toNat = a.sequence.toNat + es.length := by
  induction es generalizing a with
  | nil =>
    obtain rfl : a = b := h
    rfl
  | cons e es ih =>
    have hrest := ih h.2
    have hstep := e.contiguous
    rw [h.1] at hstep
    rw [length_cons]
    omega

/-- Two anchors of a chain with the same sequence are the same. -/
lemma eq_of_sequence (h : Chain a es b) (hseq : a.sequence = b.sequence) : a = b := by
  have hlen := h.sequence_eq
  have hnil : es = [] := eq_nil_of_length_eq_zero (by rw [hseq] at hlen; omega)
  subst hnil
  exact h

/-- The anchors of the envelopes lie behind the start and not behind the end. -/
lemma sequence_mem (h : Chain a es b) {e : JournalEnvelope} (he : e ∈ es) :
    a.sequence.toNat < e.current.sequence.toNat ∧
      e.current.sequence.toNat ≤ b.sequence.toNat := by
  obtain ⟨front, back, rfl⟩ := append_of_mem he
  obtain ⟨m, hfront, hprevious, hback⟩ := h.split
  have hstart := hfront.sequence_eq
  have hend := Chain.sequence_eq hback
  have hstep := e.contiguous
  rw [hprevious] at hstep
  omega

lemma getLast_current (h : Chain a es b) (hne : es ≠ []) : (es.getLast hne).current = b := by
  induction es generalizing a with
  | nil => exact absurd rfl hne
  | cons e es ih =>
    by_cases hnil : es = []
    · subst hnil
      exact h.2
    · rw [getLast_cons hnil]
      exact ih h.2 hnil

end Chain

/-! ## What the validation accepts -/

/-- The validation takes the envelopes one after the other. -/
def Observes : AttachedChain → List JournalEnvelope → AttachedChain → Prop
  | chain, [], chain' => chain = chain'
  | chain, e :: es, chain' => ∃ next,
      (∀ offset, ∃ behind, chain.observe .current e offset = .ok (next, behind)) ∧
      Observes next es chain'

lemma Observes.append {chain₁ chain₂ chain₃ : AttachedChain} {es fs : List JournalEnvelope}
    (h : Observes chain₁ es chain₂) (h' : Observes chain₂ fs chain₃) :
    Observes chain₁ (es ++ fs) chain₃ := by
  induction es generalizing chain₁ with
  | nil =>
    obtain rfl : chain₁ = chain₂ := h
    exact h'
  | cons e es ih =>
    obtain ⟨next, hstep, hrest⟩ := h
    exact ⟨next, hstep, ih hrest⟩

/-- The record before is unknown, or ends at this anchor. -/
def EndsAt (previous : Option JournalAnchor) (a : JournalAnchor) : Prop :=
  previous = none ∨ previous = some a

lemma EndsAt.start (a : JournalAnchor) : EndsAt none a := .inl rfl

lemma EndsAt.any_ne {previous : Option JournalAnchor} {e : JournalEnvelope}
    (h : EndsAt previous e.previous) :
    (previous.any fun p => decide (e.previous ≠ p)) = false := by
  obtain rfl | rfl := h
  · rfl
  · simp

section Validation

variable {a m c t : JournalAnchor} {es rest : List JournalEnvelope}
  {previous : Option JournalAnchor}

lemma observes_covered (hchain : Chain a es m) (hrest : Chain m rest c)
    (hprevious : EndsAt previous a) :
    ∃ previous', EndsAt previous' m ∧
      Observes ⟨some c, some t, previous⟩ es ⟨some c, some t, previous'⟩ := by
  induction es generalizing a previous with
  | nil =>
    obtain rfl : a = m := hchain
    exact ⟨previous, hprevious, rfl⟩
  | cons e es ih =>
    obtain ⟨hstart, htail⟩ := hchain
    have hnext : EndsAt (some e.current) e.current := .inr rfl
    obtain ⟨previous', hends, hobserves⟩ := ih htail hnext
    refine ⟨previous', hends, ⟨some c, some t, some e.current⟩, fun offset => ⟨false, ?_⟩,
      hobserves⟩
    -- the chain goes on from here to the checkpoint
    have hon := htail.append hrest
    have hle : e.current.sequence.toNat ≤ c.sequence.toNat := by
      rw [hon.sequence_eq]
      omega
    subst hstart
    simp only [AttachedChain.observe, reduceCtorEq, if_false, hprevious.any_ne, Bool.false_eq_true]
    by_cases hlt : e.current.sequence < c.sequence
    · rw [if_pos hlt]
    · have hnat : ¬ e.current.sequence.toNat < c.sequence.toNat :=
        fun h => hlt (UInt64.lt_iff_toNat_lt.mpr h)
      have heq : e.current.sequence = c.sequence := UInt64.toNat_inj.mp (by omega)
      have hsame := hon.eq_of_sequence heq
      rw [if_neg hlt, if_pos heq, if_neg (not_not.mpr hsame)]

lemma observes_retained (hchain : Chain t es m) (hcheckpoint : c.sequence.toNat ≤ t.sequence.toNat)
    (hprevious : EndsAt previous t) :
    ∃ previous', EndsAt previous' m ∧
      Observes ⟨some c, some t, previous⟩ es ⟨some c, some m, previous'⟩ := by
  induction es generalizing t previous with
  | nil =>
    obtain rfl : t = m := hchain
    exact ⟨previous, hprevious, rfl⟩
  | cons e es ih =>
    obtain ⟨hstart, htail⟩ := hchain
    have hstep := e.contiguous
    subst hstart
    have hnext : EndsAt (some e.current) e.current := .inr rfl
    obtain ⟨previous', hends, hobserves⟩ := ih htail (by omega) hnext
    refine ⟨previous', hends, ⟨some c, some e.current, some e.current⟩,
      fun offset => ⟨true, ?_⟩, hobserves⟩
    have hnlt : ¬ e.current.sequence < c.sequence := by
      rw [UInt64.lt_iff_toNat_lt]
      omega
    have hne : ¬ e.current.sequence = c.sequence := by
      rw [← UInt64.toNat_inj]
      omega
    simp only [AttachedChain.observe, reduceCtorEq, if_false, hprevious.any_ne, Bool.false_eq_true,
      if_neg hnlt, if_neg hne, ne_eq, not_true_eq_false]

end Validation

/-! ## Reading the records -/

section Reading

variable {crc : List Byte → UInt32} {header : FileHeader}

lemma AttachedRecord.length_written (r : AttachedRecord) : (r.written crc).length =
    recordHeaderSize + r.record.body.length + recordFooterSize :=
  length_recordBytes crc _ _ _

variable (header) in
lemma nextRecord_written {r : AttachedRecord} (hr : r.Accepted crc) (rest : List Byte)
    (recordOffset : ℕ) :
    nextRecord crc header (r.written crc ++ rest) recordOffset =
      .ok (some (r.record.op, (r.written crc).length)) := by
  have hbody := hr.1.body
  have hsplit : r.written crc ++ rest = recordHeader r.record.seq r.record.ty
      r.record.body.length ++ (r.record.body ++
        (bytes 4 (crc (covered r.record.seq r.record.ty r.record.body)).toNat ++ rest)) := by
    simp [AttachedRecord.written, WalRecord.written, recordBytes, covered_eq]
  have hmagic : value ((r.written crc ++ rest).take 4) = recordMagic := by
    rw [hsplit]
    exact value_magic _ _ _
  have hfield : bodyLenField (r.written crc ++ rest) = r.record.body.length := by
    rw [hsplit]
    exact bodyLenField_header _ _ _ hbody
  have hlen : (r.written crc ++ rest).length =
      recordHeaderSize + r.record.body.length + recordFooterSize + rest.length := by
    rw [length_append, r.length_written]
  have hsize := hr.2
  rw [r.length_written] at hsize
  have hread := (hr.1.isRecord crc).read []
  rw [append_nil] at hread
  have htake : (r.written crc ++ rest).take
      (recordHeaderSize + r.record.body.length + recordFooterSize) = r.record.written crc :=
    take_left' r.length_written
  have hattached : r.record.op.isAttached = true := rfl
  rw [nextRecord, if_neg (by omega), if_neg (not_not.mpr hmagic)]
  simp only [hfield]
  rw [if_neg (by omega), if_neg (by omega), htake, hread]
  simp only [WalRecord.decoded, hattached, Bool.true_eq_false, and_false, if_false]
  rfl

lemma nextRecord_torn {r : AttachedRecord} (hr : r.Accepted crc) {part : List Byte}
    (hpart : part <+: r.written crc) (hne : part ≠ r.written crc) (recordOffset : ℕ) :
    nextRecord crc header part recordOffset = .ok none := by
  rw [nextRecord]
  by_cases hshort : part.length < recordHeaderSize
  · rw [if_pos hshort]
  · rw [if_neg hshort]
    have hbody := hr.1.body
    have hheader : recordHeader r.record.seq r.record.ty r.record.body.length <+:
        r.written crc := by
      rw [AttachedRecord.written, WalRecord.written, recordBytes, covered_eq, append_assoc]
      exact prefix_append _ _
    have hlt : part.length < (r.written crc).length :=
      lt_of_le_of_ne hpart.length_le (fun heq => hne (hpart.eq_of_length heq))
    rw [r.length_written] at hlt
    obtain ⟨rest, rfl⟩ := prefix_of_prefix_length_le hheader hpart
      (by rw [length_recordHeader]; omega)
    rw [if_neg (not_not.mpr (value_magic _ _ _))]
    simp only [bodyLenField_header _ _ _ hbody]
    rw [if_pos hlt]

lemma validateLoop_records (hversion : header.version = .current) {records : List AttachedRecord}
    (hr : ∀ r ∈ records, r.Accepted crc) {tail : List Byte}
    (htail : ∀ offset, nextRecord crc header tail offset = .ok none) {chain chain' : AttachedChain}
    (hchain : Observes chain (records.map AttachedRecord.envelope) chain') {fuel : ℕ}
    (hfuel : records.length ≤ fuel) (offset : ℕ) :
    validateLoop crc header fuel ((records.map (AttachedRecord.written crc)).flatten ++ tail) offset
      chain = .ok chain' := by
  induction records generalizing chain fuel offset with
  | nil =>
    obtain rfl : chain = chain' := hchain
    cases fuel with
    | zero => rfl
    | succ fuel =>
      rw [map_nil, flatten_nil, nil_append, validateLoop, htail]
  | cons r records ih =>
    obtain ⟨next, hstep, hrest⟩ := hchain
    cases fuel with
    | zero => simp at hfuel
    | succ fuel =>
      obtain ⟨behind, hobserve⟩ := hstep offset
      have hnext := nextRecord_written header (hr r mem_cons_self)
        ((records.map (AttachedRecord.written crc)).flatten ++ tail) offset
      have hop : r.record.op = .dbBatchWithEnvelope r.envelope (r.pushes.flatMap Push.ops) := rfl
      rw [map_cons, flatten_cons, append_assoc, validateLoop, hnext, hop]
      dsimp only
      rw [hversion, hobserve]
      dsimp only
      rw [drop_left' rfl]
      exact ih (forall_mem_cons.mp hr).2 hrest
        (Nat.le_of_succ_le_succ hfuel) _

end Reading

/-! ## The invariant -/

/-- `anchor` is a position in the chain of the records: those before it are covered by the
checkpoint, those behind it are retained. -/
def Position (records : List AttachedRecord) (anchor tail : JournalAnchor) (covered : ℕ) : Prop :=
  ∃ start, Chain start ((records.take covered).map AttachedRecord.envelope) anchor ∧
    Chain anchor ((records.drop covered).map AttachedRecord.envelope) tail ∧
    covered ≤ records.length

/-- What holds between the calls of the journal, and during them. -/
structure AttachedInv (crc : List Byte → UInt32) (s : AttachedJournal) : Prop where
  slots : SlotsOk crc s
  accepted : ∀ r ∈ s.records, r.Accepted crc
  synced : s.synced ≤ s.records.length
  /-- The header has the checkpoint's anchor or the one that is being persisted. -/
  anchor : s.anchor = s.checkpoint ∨ ∃ p, s.persist = some p ∧ s.anchor = some p.anchor
  empty : s.checkpoint = none → s.tail = none ∧ s.records = []
  chain : ∀ c, s.checkpoint = some c → ∃ t covered, s.tail = some t ∧
    Position s.records c t covered ∧ covered ≤ s.synced
  /-- A checkpoint persists the tail, behind synced records; an initialisation the checkpoint. -/
  persist : ∀ p, s.persist = some p → s.generation.toNat + p.left < 2 ^ 64 ∧
    (p.left = 0 → s.anchor = some p.anchor) ∧
    (if p.truncating then s.tail = some p.anchor ∧ s.synced = s.records.length
      else ∀ c, s.checkpoint = some c → p.anchor = c)

lemma attachedInv_created (crc : List Byte → UInt32) : AttachedInv crc .created where
  slots := slotsOk_created
  accepted r hr := by cases hr
  synced := le_rfl
  anchor := .inl rfl
  empty _ := ⟨rfl, rfl⟩
  chain c hc := by cases hc
  persist p hp := by cases hp

section Invariant

variable {crc : List Byte → UInt32} {s s' : AttachedJournal}

variable {records : List AttachedRecord} {t : JournalAnchor} {covered : ℕ}

/-- With the anchor at the end of the records, all of them are covered. -/
lemma Position.covers_all {c : JournalAnchor} (h : Position records c t covered) :
    Position records t t records.length := by
  obtain ⟨start, hcovered, hretained, -⟩ := h
  refine ⟨start, ?_, ?_, le_rfl⟩
  · have hall := hcovered.append hretained
    rw [← map_append, take_append_drop] at hall
    rw [take_length]
    exact hall
  · rw [drop_length]
    rfl

lemma position_nil (a : JournalAnchor) : Position [] a a 0 := ⟨a, rfl, rfl, le_rfl⟩

lemma Position.snoc {c : JournalAnchor} (h : Position records c t covered) {r : AttachedRecord}
    (hr : r.envelope.previous = t) : Position (records ++ [r]) c r.envelope.current covered := by
  obtain ⟨start, hcovered, hretained, hle⟩ := h
  refine ⟨start, ?_, ?_, ?_⟩
  · rwa [take_append_of_le_length hle]
  · rw [drop_append_of_le_length hle, map_append]
    exact hretained.append ⟨hr, rfl⟩
  · rw [length_append]
    omega

variable (inv : AttachedInv crc s)
include inv

/-- A header anchor, after any crash, is a position in the chain. -/
lemma AttachedInv.position {h : JournalAnchor}
    (hanchor : some h = s.anchor ∨ ∃ p, s.persist = some p ∧ some h = some p.anchor) :
    (some h = s.checkpoint ∨ ∃ p, s.persist = some p ∧ h = p.anchor) ∧
      ∃ t covered, Position s.records h t covered ∧ covered ≤ s.synced := by
  have hwhere : some h = s.checkpoint ∨ ∃ p, s.persist = some p ∧ h = p.anchor := by
    obtain hheader | ⟨p, hp, hpersist⟩ := hanchor
    · obtain hsame | ⟨p, hp, hpersist⟩ := inv.anchor
      · exact .inl (hheader.trans hsame)
      · exact .inr ⟨p, hp, Option.some.inj (hheader.trans hpersist)⟩
    · exact .inr ⟨p, hp, Option.some.inj hpersist⟩
  refine ⟨hwhere, ?_⟩
  cases hcheckpoint : s.checkpoint with
  | none =>
    -- nothing is in the file yet
    obtain ⟨-, hrecords⟩ := inv.empty hcheckpoint
    rw [hrecords]
    exact ⟨h, 0, position_nil h, Nat.zero_le _⟩
  | some c =>
    obtain ⟨t, covered, htail, hposition, hsynced⟩ := inv.chain c hcheckpoint
    obtain hsame | ⟨p, hp, rfl⟩ := hwhere
    · rw [hcheckpoint, Option.some.injEq] at hsame
      exact ⟨t, covered, hsame ▸ hposition, hsynced⟩
    · have hcall := (inv.persist p hp).2.2
      by_cases htruncating : p.truncating = true
      · rw [if_pos htruncating, htail, Option.some.injEq] at hcall
        exact ⟨t, s.records.length, hcall.1 ▸ hposition.covers_all, hcall.2.ge⟩
      · rw [if_neg htruncating] at hcall
        exact ⟨t, covered, hcall c hcheckpoint ▸ hposition, hsynced⟩

omit inv in
/-- The validation accepts any number of the records behind a position of their chain, and its
tail is where they end, or the position itself. -/
lemma Position.observes {h : JournalAnchor} (hposition : Position records h t covered) (k : ℕ) :
    ∃ m chain, Chain h (((records.take k).drop covered).map AttachedRecord.envelope) m ∧
      Observes (.new (some h)) ((records.take k).map AttachedRecord.envelope) chain ∧
      chain.state = some ⟨h, m⟩ := by
  obtain ⟨start, hcovered, hretained, hle⟩ := hposition
  by_cases hk : k ≤ covered
  · -- nothing behind the checkpoint is left
    have hsplit : records.take covered = records.take k ++ (records.take covered).drop k := by
      conv_lhs => rw [← take_append_drop k (records.take covered), take_take,
        min_eq_left hk]
    rw [hsplit, map_append] at hcovered
    obtain ⟨m, hkept, hrest⟩ := hcovered.split
    obtain ⟨previous, -, hobserves⟩ :=
      observes_covered (t := h) hkept hrest (EndsAt.start _)
    refine ⟨h, _, ?_, hobserves, rfl⟩
    rw [drop_of_length_le (by rw [length_take]; omega)]
    rfl
  · have hsplit : records.take k = records.take covered ++ (records.take k).drop covered := by
      conv_lhs => rw [← take_append_drop covered (records.take k), take_take,
        min_eq_left (by omega)]
    have hdrop : (records.drop covered).map AttachedRecord.envelope =
        ((records.take k).drop covered).map AttachedRecord.envelope ++
          (records.drop k).map AttachedRecord.envelope := by
      rw [← map_append]
      congr 1
      conv_lhs => rw [← take_append_drop k records]
      rw [drop_append_of_le_length (by rw [length_take]; omega)]
    rw [hdrop] at hretained
    obtain ⟨m, hkept, -⟩ := hretained.split
    obtain ⟨previous, hends, hfirst⟩ :=
      observes_covered (t := h) hcovered (Chain.nil h) (EndsAt.start _)
    obtain ⟨previous', -, hsecond⟩ := observes_retained hkept le_rfl hends
    refine ⟨m, ⟨some h, some m, previous'⟩, hkept, ?_, rfl⟩
    rw [hsplit, map_append]
    exact hfirst.append hsecond

/-- What is left of the records after a cut: whole ones, and a tail that the reader stops at. -/
lemma AttachedInv.take_blocks (cut : ℕ) :
    ∃ tail, (s.blocks crc).flatten.take cut =
        ((s.records.take (wholeBlocks (s.blocks crc) cut)).map
          (AttachedRecord.written crc)).flatten ++ tail ∧
      (∀ header offset, nextRecord crc header tail offset = .ok none) ∧
      (tail = [] ∨ ∃ c, decodeRecord crc tail = .error c ∧ isTornTail c.text = true) := by
  obtain ⟨tail, htake, hpart, -⟩ := exists_take_flatten (s.blocks crc) cut
  refine ⟨tail, ?_, fun header offset => ?_, ?_⟩
  · rw [htake, map_take]
    rfl
  · obtain rfl | ⟨b, hb, hpre, hne⟩ := hpart
    · rfl
    · obtain ⟨r, hr, rfl⟩ := List.mem_map.mp hb
      exact nextRecord_torn (inv.accepted r hr) hpre hne offset
  · refine hpart.imp_right ?_
    rintro ⟨b, hb, hpre, hne⟩
    obtain ⟨r, hr, rfl⟩ := List.mem_map.mp hb
    exact ((inv.accepted r hr).1.isRecord crc).torn _ hpre hne

lemma AttachedInv.writable_take (k : ℕ) :
    ∀ q ∈ (s.records.take k).map AttachedRecord.record, q.Writable := by
  intro q hq
  obtain ⟨r, hr, rfl⟩ := List.mem_map.mp hq
  exact (inv.accepted r (mem_of_mem_take hr)).1

variable {torn : Option (List Byte)}

/-- An image whose slots hold `anchor` is validated record by record. -/
lemma AttachedInv.validate_image (treeId createdAt : UInt64) {anchor : Option JournalAnchor}
    {generation : UInt64} (hslots : SlotsOk crc
      { torn.elim s s.setSlot with anchor := anchor, generation := generation }) {cut : ℕ}
    {chain : AttachedChain}
    (hchain : Observes (.new anchor) ((s.records.take (wholeBlocks (s.blocks crc) cut)).map
      AttachedRecord.envelope) chain) :
    validateAttachedJournal crc (s.image crc treeId createdAt torn cut) = .ok chain.state := by
  obtain ⟨tail, htake, htail, -⟩ := inv.take_blocks cut
  have hheader := decodeFileHeader_page crc treeId createdAt hslots.lengthA hslots.lengthB
    ((s.blocks crc).flatten.take cut)
  have hdecode := hslots.decode
  dsimp only at hheader hdecode
  rw [hdecode] at hheader
  have hpage := length_headerPage treeId createdAt hslots.lengthA hslots.lengthB
  change _ = 4096 at hpage
  have hlen : (s.image crc treeId createdAt torn cut).length =
      4096 + ((s.blocks crc).flatten.take cut).length := by
    rw [AttachedJournal.image, length_append, hpage]
  have hlong : ¬ (s.image crc treeId createdAt torn cut).length <
      FormatVersion.legacy.headerSize := by
    simp only [hlen, FormatVersion.headerSize]
    omega
  have hrecords : (s.records.take (wholeBlocks (s.blocks crc) cut)).length ≤
      (s.image crc treeId createdAt torn cut).length := by
    have hcount := length_le_written crc (inv.writable_take (wholeBlocks (s.blocks crc) cut))
    rw [length_map, List.map_map] at hcount
    change _ ≤ ((s.records.take (wholeBlocks (s.blocks crc) cut)).map
      (AttachedRecord.written crc)).flatten.length at hcount
    rw [hlen, htake, length_append]
    omega
  have hloop := validateLoop_records
    (show (⟨.current, treeId, createdAt, anchor, generation⟩ : FileHeader).version = .current from
      rfl) (fun r hr => inv.accepted r (mem_of_mem_take hr)) (htail _) hchain hrecords 4096
  rw [validateAttachedJournal, if_neg hlong, AttachedJournal.image, hheader]
  change Except.map AttachedChain.state (validateLoop crc ⟨.current, treeId, createdAt, anchor,
    generation⟩ (s.image crc treeId createdAt torn cut).length
      ((headerPage _ _ _ _ ++ (s.blocks crc).flatten.take cut).drop 4096) 4096 (.new anchor)) = _
  rw [drop_left' hpage, htake, hloop]
  rfl

/-- The replay that comes before the validation delivers the records that are left. -/
lemma AttachedInv.replay_image (treeId createdAt : UInt64) {anchor : Option JournalAnchor}
    {generation : UInt64} (hslots : SlotsOk crc
      { torn.elim s s.setSlot with anchor := anchor, generation := generation }) (cut : ℕ) :
    ∃ header stats, replayBytes crc collect (s.image crc treeId createdAt torn cut) [] =
      .ok (header, stats, (s.records.take (wholeBlocks (s.blocks crc) cut)).flatMap
        (fun r => r.record.delivered)) := by
  obtain ⟨tail, htake, -, htail⟩ := inv.take_blocks cut
  have hheader := decodeFileHeader_page crc treeId createdAt hslots.lengthA hslots.lengthB []
  have hdecode := hslots.decode
  have hpage := length_headerPage treeId createdAt hslots.lengthA hslots.lengthB
  dsimp only at hheader hdecode
  rw [hdecode, append_nil] at hheader
  obtain ⟨stats, hreplay, -⟩ := replayBytes_whole hheader hpage
    (inv.writable_take (wholeBlocks (s.blocks crc) cut))
    (fun q hq => by
      obtain ⟨r, -, rfl⟩ := List.mem_map.mp hq
      exact ⟨by simp, fun hmode => Bool.noConfusion hmode.2⟩) htail
  refine ⟨⟨.current, treeId, createdAt, anchor, generation⟩, stats, ?_⟩
  rw [List.map_map, flatMap_map] at hreplay
  rw [AttachedJournal.image, htake]
  exact hreplay

/-- **Reopening.**  After any crash the header says an anchor that is a position of the chain in
the file, or none if there has not been one, and the validation accepts the file. -/
lemma AttachedInv.reopens (treeId createdAt : UInt64) (htorn : ∀ slot ∈ torn, s.TornSlot crc slot)
    (cut : ℕ) : ∃ anchor generation, SlotsOk crc
        { torn.elim s s.setSlot with anchor := anchor, generation := generation } ∧
      ((anchor = none ∧ s.checkpoint = none ∧ s.records = [] ∧
          validateAttachedJournal crc (s.image crc treeId createdAt torn cut) = .ok none) ∨
        ∃ h m t covered, anchor = some h ∧
          (some h = s.checkpoint ∨ ∃ p, s.persist = some p ∧ h = p.anchor) ∧
          Position s.records h t covered ∧ covered ≤ s.synced ∧
          Chain h (((s.records.take (wholeBlocks (s.blocks crc) cut)).drop covered).map
            AttachedRecord.envelope) m ∧
          validateAttachedJournal crc (s.image crc treeId createdAt torn cut) =
            .ok (some ⟨h, m⟩)) := by
  obtain ⟨anchor, generation, hanchor, hslots⟩ :=
    inv.slots.crash htorn (fun p hp => (inv.persist p hp).1)
  refine ⟨anchor, generation, hslots, ?_⟩
  cases anchor with
  | none =>
    left
    have hnone : s.checkpoint = none := by
      obtain hheader | ⟨p, -, hp⟩ := hanchor
      · obtain hsame | ⟨p, -, hp⟩ := inv.anchor
        · rw [← hsame, ← hheader]
        · rw [← hheader] at hp
          cases hp
      · cases hp
    obtain ⟨-, hrecords⟩ := inv.empty hnone
    have hobserves : Observes (.new none) ((s.records.take (wholeBlocks (s.blocks crc) cut)).map
        AttachedRecord.envelope) (.new none) := by
      rw [hrecords, take_nil]
      rfl
    exact ⟨rfl, hnone, hrecords, inv.validate_image treeId createdAt hslots hobserves⟩
  | some h =>
    right
    obtain ⟨hwhere, t, covered, hposition, hsynced⟩ := inv.position hanchor
    obtain ⟨m, chain, hchain, hobserves, hstate⟩ :=
      hposition.observes (wholeBlocks (s.blocks crc) cut)
    refine ⟨h, m, t, covered, rfl, hwhere, hposition, hsynced, hchain, ?_⟩
    rw [inv.validate_image treeId createdAt hslots hobserves, hstate]

/-! ## Runs -/

lemma AttachedInv.anchor_of_idle (hidle : s.persist = none) :
    s.anchor = s.checkpoint := by
  obtain hsame | ⟨p, hp, -⟩ := inv.anchor
  · exact hsame
  · cases hidle.symm.trans hp

lemma AttachedInv.sync (hidle : s.persist = none) :
    AttachedInv crc { s with synced := s.records.length } := by
  refine ⟨{ inv.slots with }, inv.accepted, le_rfl, inv.anchor, inv.empty, fun c hc => ?_,
    fun p hp => nomatch hidle.symm.trans hp⟩
  obtain ⟨t, covered, ht, hposition, -⟩ := inv.chain c hc
  obtain ⟨-, -, -, hle⟩ := id hposition
  exact ⟨t, covered, ht, hposition, hle⟩

lemma AttachedInv.beginPersist (hidle : s.persist = none) {anchor : JournalAnchor}
    {truncating : Bool} (hstep : s.beginPersist anchor truncating = some s')
    (hcall : if truncating then s.tail = some anchor ∧ s.synced = s.records.length
      else ∀ c, s.checkpoint = some c → anchor = c) : AttachedInv crc s' := by
  simp only [AttachedJournal.beginPersist, ite_none_right_eq_some,
    Option.some.injEq] at hstep
  obtain ⟨hroom, rfl⟩ := hstep
  refine { inv with
    slots := { inv.slots with }
    anchor := .inl (inv.anchor_of_idle hidle)
    persist := fun p hp => ?_ }
  cases hp
  refine ⟨hroom, fun hzero => ?_, hcall⟩
  dsimp only at hzero
  split_ifs at hzero

/-- Reopening brings the invariant back: what is kept of the chain is synced. -/
lemma AttachedInv.crash {treeId createdAt : UInt64} (htorn : ∀ slot ∈ torn, s.TornSlot crc slot)
    {cut : ℕ} (hsynced : s.synced ≤ wholeBlocks (s.blocks crc) cut)
    (hstep : s.reopen crc treeId createdAt torn cut = some s') : AttachedInv crc s' := by
  obtain ⟨anchor, generation, hslots, hcases⟩ := inv.reopens treeId createdAt htorn cut
  have hdecode := hslots.decode
  dsimp only at hdecode
  have hkept : wholeBlocks (s.blocks crc) cut ≤ s.records.length := by
    have hle := wholeBlocks_le (s.blocks crc) cut
    rwa [AttachedJournal.blocks, length_map] at hle
  have haccepted : ∀ r ∈ s.records.take (wholeBlocks (s.blocks crc) cut), r.Accepted crc :=
    fun r hr => inv.accepted r (mem_of_mem_take hr)
  have hlength : wholeBlocks (s.blocks crc) cut ≤
      (s.records.take (wholeBlocks (s.blocks crc) cut)).length := by
    rw [length_take]
    omega
  simp only [AttachedJournal.reopen, hdecode] at hstep
  obtain ⟨rfl, -, hrecords, hvalidate⟩ | ⟨h, m, t, covered, rfl, -, hposition, hcovered, hchain,
    hvalidate⟩ := hcases
  · rw [hvalidate] at hstep
    cases hstep
    refine ⟨{ hslots with }, haccepted, hlength, .inl rfl, fun _ => ⟨rfl, ?_⟩, nofun, nofun⟩
    dsimp only
    rw [hrecords, take_nil]
  · rw [hvalidate] at hstep
    cases hstep
    refine ⟨{ hslots with }, haccepted, hlength, .inl rfl, nofun, fun c hc => ?_, nofun⟩
    cases hc
    obtain ⟨start, hstart, -, -⟩ := hposition
    refine ⟨m, covered, rfl, ⟨start, ?_, hchain, (hcovered.trans hsynced).trans hlength⟩,
      hcovered.trans hsynced⟩
    rwa [take_take, min_eq_left (by omega)]

/-- The step lemma. -/
theorem AttachedInv.step {treeId createdAt : UInt64} {a : AttachedAction}
    (hstep : attachedStep crc treeId createdAt s a = some s') :
    AttachedInv crc s' := by
  cases a <;> simp only [attachedStep, ite_none_right_eq_some, isNone_iff_eq_none,
    Option.some.injEq] at hstep
  case initializeAnchor genesis =>
    obtain ⟨hidle, hstep⟩ := hstep
    split at hstep
    · next existing hcheckpoint =>
      obtain ⟨rfl, hstep⟩ := ite_none_right_eq_some.mp hstep
      exact inv.beginPersist hidle hstep fun c hc => Option.some.inj (hcheckpoint.symm.trans hc)
    · next hcheckpoint =>
      obtain ⟨-, hstep⟩ := ite_none_right_eq_some.mp hstep
      exact inv.beginPersist hidle hstep fun c hc => nomatch hcheckpoint.symm.trans hc
  case submit r =>
    obtain ⟨⟨hidle, htail, haccepted⟩, rfl⟩ := hstep
    refine ⟨{ inv.slots with },
      forall_mem_append.mpr ⟨inv.accepted, forall_mem_singleton.mpr haccepted⟩,
      inv.synced.trans (by simp), .inl (inv.anchor_of_idle hidle),
      fun hnone => (nomatch htail.symm.trans (inv.empty hnone).1), fun c hc => ?_,
      fun p hp => nomatch hidle.symm.trans hp⟩
    obtain ⟨t, covered, ht, hposition, hsynced⟩ := inv.chain c hc
    rw [htail, Option.some.injEq] at ht
    exact ⟨_, covered, rfl, hposition.snoc ht, hsynced⟩
  case syncRecords =>
    obtain ⟨hidle, rfl⟩ := hstep
    exact inv.sync hidle
  case truncate =>
    obtain ⟨hidle, hstep⟩ := hstep
    split at hstep
    · next tail htail => exact (inv.sync hidle).beginPersist hidle hstep ⟨htail, rfl⟩
    · next htail =>
      -- no anchor yet, and so no records either
      cases hstep
      have hnone : ∀ c, s.checkpoint ≠ some c := by
        intro c hc
        obtain ⟨t, covered, ht, -⟩ := inv.chain c hc
        cases htail.symm.trans ht
      exact ⟨{ inv.slots with }, nofun, le_rfl, inv.anchor, fun _ => ⟨htail, rfl⟩,
        fun c hc => absurd hc (hnone c), fun p hp => nomatch hidle.symm.trans hp⟩
  case writeSlot =>
    split at hstep <;> try contradiction
    next p hp =>
      obtain ⟨hleft, rfl⟩ := guard_eq_some.mp hstep
      obtain ⟨hroom, -, hcall⟩ := inv.persist p hp
      have hwrite := inv.slots.write (by omega) p.anchor
      obtain ⟨hnat, -⟩ := toNat_succ (g := s.generation) (by omega)
      rw [AttachedJournal.setSlot_eq]
      rw [AttachedJournal.withGeneration, AttachedJournal.setSlot_eq] at hwrite
      refine ⟨{ hwrite with }, inv.accepted, inv.synced, .inr ⟨_, rfl, rfl⟩, inv.empty, inv.chain,
        fun q hq => ?_⟩
      cases hq
      refine ⟨?_, fun _ => rfl, hcall⟩
      dsimp only
      rw [hnat]
      omega
  case persisted =>
    split at hstep <;> try contradiction
    next p hp =>
      obtain ⟨hdone, hstep⟩ := ite_none_right_eq_some.mp hstep
      obtain ⟨-, hanchor, hcall⟩ := inv.persist p hp
      have hslots := inv.slots
      by_cases htruncating : p.truncating = true
      · rw [if_pos htruncating] at hcall hstep
        cases hstep
        exact ⟨{ hslots with }, nofun, le_rfl, .inl ((hanchor hdone).trans hcall.1.symm),
          fun hnone => ⟨hnone, rfl⟩, fun c hc => ⟨c, 0, hc, position_nil c, le_rfl⟩, nofun⟩
      · rw [if_neg htruncating] at hcall hstep
        split at hstep <;> cases hstep
        · next hnone =>
          obtain ⟨-, hrecords⟩ := inv.empty hnone
          refine ⟨{ hslots with }, inv.accepted, inv.synced, .inl (hanchor hdone), nofun, ?_, nofun⟩
          intro c hc
          cases hc
          exact ⟨p.anchor, 0, rfl, hrecords ▸ position_nil _, Nat.zero_le _⟩
        · next hsome =>
          obtain ⟨c, hc⟩ := ne_none_iff_exists'.mp hsome
          refine { inv with slots := { hslots with }, anchor := .inl ?_, persist := nofun }
          dsimp only
          rw [hanchor hdone, hc, hcall c hc]
  case crash torn cut =>
    obtain ⟨⟨htorn, hsynced⟩, hstep⟩ := hstep
    exact inv.crash htorn hsynced hstep

/-! ## What is reported -/

omit inv

/-- The current anchor of the last record, or the checkpoint if that is later. -/
def lastAnchor (checkpoint : JournalAnchor) (records : List AttachedRecord) : JournalAnchor :=
  match records.getLast? with
  | some r =>
    if checkpoint.sequence < r.envelope.current.sequence then r.envelope.current else checkpoint
  | none => checkpoint

/-- The envelopes behind the checkpoint. -/
def retained (checkpoint : JournalAnchor) (records : List AttachedRecord) : List JournalEnvelope :=
  (records.map AttachedRecord.envelope).filter
    (fun e => checkpoint.sequence < e.current.sequence)

section Report

variable {h m : JournalAnchor} {front back : List AttachedRecord}

lemma retained_eq (hfront : ∀ r ∈ front, r.envelope.current.sequence.toNat ≤ h.sequence.toNat)
    (hback : Chain h (back.map AttachedRecord.envelope) m) :
    retained h (front ++ back) = back.map AttachedRecord.envelope := by
  have hnone : (front.map AttachedRecord.envelope).filter
      (fun e => h.sequence < e.current.sequence) = [] := by
    rw [filter_eq_nil_iff]
    intro e he
    obtain ⟨r, hr, rfl⟩ := List.mem_map.mp he
    have hle := hfront r hr
    rw [decide_eq_true_eq, UInt64.lt_iff_toNat_lt]
    omega
  have hall : (back.map AttachedRecord.envelope).filter
      (fun e => h.sequence < e.current.sequence) = back.map AttachedRecord.envelope := by
    rw [filter_eq_self]
    intro e he
    rw [decide_eq_true_eq, UInt64.lt_iff_toNat_lt]
    exact (hback.sequence_mem he).1
  rw [retained, map_append, filter_append, hnone, hall, nil_append]

lemma lastAnchor_eq (hfront : ∀ r ∈ front, r.envelope.current.sequence.toNat ≤ h.sequence.toNat)
    (hback : Chain h (back.map AttachedRecord.envelope) m) :
    lastAnchor h (front ++ back) = m := by
  by_cases hnil : back = []
  · subst hnil
    obtain rfl : h = m := hback
    rw [append_nil, lastAnchor]
    cases hlast : front.getLast? with
    | none => rfl
    | some r =>
      have hle := hfront r (mem_of_getLast? hlast)
      dsimp only
      rw [if_neg]
      rw [UInt64.lt_iff_toNat_lt]
      omega
  · have hne : back.map AttachedRecord.envelope ≠ [] := by simpa using hnil
    have hcurrent := hback.getLast_current hne
    rw [getLast_map] at hcurrent
    have hlt : h.sequence < m.sequence := by
      have hseq := hback.sequence_eq
      have hpos := length_pos_of_ne_nil hne
      rw [UInt64.lt_iff_toNat_lt]
      omega
    rw [lastAnchor, getLast?_append_of_ne_nil _ hnil, getLast?_eq_some_getLast hnil]
    dsimp only
    rw [hcurrent, if_pos hlt]

end Report

/-- **Crashes of an attached journal.**  After any run, with crashes in it that lose no synced
record, let the process crash once more, in the middle of a slot write (`torn`) or not, with any
part of the records left.  Replay delivers the records that are left whole, and the validation
accepts the file.  If it reports no stream, none was initialised.  Otherwise the checkpoint is
the last one that was completed or the one in progress, the tail is the anchor of the last whole
record or the checkpoint if that is later, and the envelopes behind the checkpoint lead from it
to the tail. -/
theorem attached_reopens (crc : List Byte → UInt32) (treeId createdAt : UInt64)
    {as : List AttachedAction} {s : AttachedJournal}
    (hrun : FreePath (attachedStep crc treeId createdAt) .created as s)
    {torn : Option (List Byte)} (htorn : ∀ slot ∈ torn, s.TornSlot crc slot) (cut : ℕ) :
    (∃ header stats, replayBytes crc collect (s.image crc treeId createdAt torn cut) [] =
      .ok (header, stats, (s.records.take (wholeBlocks (s.blocks crc) cut)).flatMap
        (fun r => r.record.delivered))) ∧
    ∃ state, validateAttachedJournal crc (s.image crc treeId createdAt torn cut) = .ok state ∧
      match state with
      | none => s.checkpoint = none
      | some ⟨checkpoint, tail⟩ =>
        let kept := s.records.take (wholeBlocks (s.blocks crc) cut)
        (some checkpoint = s.checkpoint ∨ ∃ p, s.persist = some p ∧ checkpoint = p.anchor) ∧
          tail = lastAnchor checkpoint kept ∧ Chain checkpoint (retained checkpoint kept) tail := by
  have inv : AttachedInv crc s :=
    hrun.invariant (fun _ _ _ hs _ hstep => hs.step hstep) (attachedInv_created crc)
  obtain ⟨anchor, generation, hslots, hcases⟩ := inv.reopens treeId createdAt htorn cut
  refine ⟨inv.replay_image treeId createdAt hslots cut, ?_⟩
  obtain ⟨-, hnone, -, hvalidate⟩ | ⟨h, m, t, covered, -, hwhere, hposition, -, hchain,
    hvalidate⟩ := hcases
  · exact ⟨none, hvalidate, hnone⟩
  · refine ⟨some ⟨h, m⟩, hvalidate, hwhere, ?_⟩
    obtain ⟨start, hcovered, -, -⟩ := hposition
    have hfront : ∀ r ∈ (s.records.take (wholeBlocks (s.blocks crc) cut)).take covered,
        r.envelope.current.sequence.toNat ≤ h.sequence.toNat := by
      intro r hr
      have hmem : r ∈ s.records.take covered := by
        rw [take_take, min_comm, ← take_take] at hr
        exact mem_of_mem_take hr
      exact (hcovered.sequence_mem (List.mem_map_of_mem hmem)).2
    rw [← take_append_drop covered (s.records.take (wholeBlocks (s.blocks crc) cut)),
      lastAnchor_eq hfront hchain, retained_eq hfront hchain]
    exact ⟨rfl, hchain⟩

end Invariant

/-- A stream is initialised, two batches are submitted, and a checkpoint has written one of its
two slots. -/
def halfCheckpoint : List AttachedAction :=
  [.initializeAnchor ⟨0, ⟨List.replicate 32 5, rfl⟩⟩, .writeSlot, .writeSlot, .persisted,
    .submit ⟨1, 0, ⟨⟨0, ⟨List.replicate 32 5, rfl⟩⟩, ⟨1, ⟨List.replicate 32 6, rfl⟩⟩, [1], rfl,
      by simp, by decide⟩, [.insert 2 [102] []]⟩,
    .crash none 4000,
    .submit ⟨2, 0, ⟨⟨1, ⟨List.replicate 32 6, rfl⟩⟩, ⟨2, ⟨List.replicate 32 7, rfl⟩⟩, [1], rfl,
      by simp, by decide⟩, [.erase 2 [102]]⟩,
    .truncate, .writeSlot]

/-- The second slot is torn, and the cut goes through the second record. -/
theorem attached_reopens_halfCheckpoint :
    ∃ s, FreePath (attachedStep (fun _ => 7) 0 0) .created halfCheckpoint s ∧
      ∃ state, validateAttachedJournal (fun _ => 7)
        (s.image (fun _ => 7) 0 0 (some (List.replicate 128 1)) 200) = .ok state := by
  obtain ⟨s, hexec, htorn⟩ := exists_of_exec_any
    (show (exec (attachedStep (fun _ => 7) 0 0) .created halfCheckpoint).any (fun s =>
      decide (s.TornSlot (fun _ => 7) (List.replicate 128 1))) = true by decide +kernel)
  have hpath := freePath_of_exec hexec
  have hslot : ∀ slot ∈ some (List.replicate 128 (1 : Byte)), s.TornSlot (fun _ => 7) slot := by
    intro slot hslot
    cases hslot
    exact of_decide_eq_true htorn
  obtain ⟨-, state, hstate, -⟩ := attached_reopens (fun _ => 7) 0 0 hpath hslot 200
  exact ⟨s, hpath, state, hstate⟩

end Journal
end Holt
