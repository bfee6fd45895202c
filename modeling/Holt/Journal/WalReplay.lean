import Holt.Journal.CodecRoundTrip
import Holt.Journal.FileHeader

/-!
# Replay of a WAL file

`replay_bytes` reads the header of a WAL and then records, until the file ends or a record is
cut off.  It hands the operations of each record to a callback, with the sequence numbers that
follow from the record's own.  A record that looks cut off is a torn tail and ends the replay
without an error; whoever opens the store truncates the file there.

* `replayBytes_whole`: what replay does with whole records and a torn tail.
* `replay_cut`: whatever a crash leaves of a WAL is replayed up to the last whole record, and
  records appended after the repair follow those that were kept.
-/

namespace Holt
namespace Journal

open List Layout LittleEndian

/-! ## The scanner -/

/-- `is_torn_tail`. -/
def isTornTail (context : String) : Bool :=
  context == "record header truncated" || context == "record body truncated"

/-- An error of the scanner, with the offset of the record, or of the callback. -/
inductive ReplayError (ε : Type)
  | sanity (context : SanityContext) (recordOffset : ℕ)
  | callback (e : ε)
deriving DecidableEq

structure ReplayStats where
  recordsSeen : ℕ
  highestSeq : Option UInt64
  tornTailAt : Option ℕ
deriving DecidableEq

namespace WalOp

/-- The operations of a record. -/
def ops : WalOp → List PrimitiveOp
  | primitive op => [op]
  | batch ops | dbBatchWithEnvelope _ ops => ops

def isAttached : WalOp → Bool
  | dbBatchWithEnvelope _ _ => true
  | _ => false

end WalOp

/-- Operation `i` of a record has the record's sequence number plus `i`, modulo `2 ^ 64`. -/
def numbered (seq : UInt64) (ops : List PrimitiveOp) : List (PrimitiveOp × UInt64) :=
  ops.zipIdx.map (fun op => (op.1, seq + UInt64.ofNat op.2))

section Scanner

variable {σ ε : Type}

/-- The variables of the loop, and what the callback has made of the operations so far. -/
structure ReplayState (σ : Type) where
  offset : ℕ
  recordsSeen : ℕ
  highestSeq : Option UInt64
  out : σ

/-- `FnMut(&WalOp, u64, u64)`: operation, sequence number and offset of the record. -/
abbrev Callback (σ ε : Type) := PrimitiveOp → UInt64 → ℕ → σ → Except ε σ

def ReplayState.observe (st : ReplayState σ) (seq : UInt64) (out : σ) : ReplayState σ :=
  { st with
    out := out
    highestSeq := some (match st.highestSeq with
      | none => seq
      | some s => max s seq) }

/-- Hand the operations of a record to the callback. -/
def callOps (callback : Callback σ ε) :
    List (PrimitiveOp × UInt64) → ReplayState σ → Except (ReplayError ε) (ReplayState σ)
  | [], st => .ok st
  | (op, seq) :: rest, st =>
    match callback op seq st.offset st.out with
    | .error e => .error (.callback e)
    | .ok out => callOps callback rest (st.observe seq out)

/-- What the loop does with a record that decodes. -/
def deliver (header : FileHeader) (callback : Callback σ ε) (st : ReplayState σ)
    (r : DecodedRecord) : Except (ReplayError ε) (ReplayState σ) :=
  if header.version = .legacy ∧ r.op.isAttached = true then
    .error (.sanity .attachedNeedsFormat4 st.offset)
  -- `validate_record_mode`
  else if header.checkpointAnchor.isSome ∧ r.op.isAttached = false then
    .error (.sanity .ordinaryInAttached st.offset)
  else
    (callOps callback (numbered r.seq r.op.ops) st).map (fun st' =>
      { st' with
        recordsSeen := st'.recordsSeen + 1
        offset := st'.offset + r.bytesConsumed })

/-- `while offset < bytes.len()`, with the bytes from the offset on and the offset of a torn
tail as result.  A record takes at least one byte, so the number of bytes bounds the turns. -/
def replayLoop (crc : List Byte → UInt32) (header : FileHeader) (callback : Callback σ ε) :
    ℕ → List Byte → ReplayState σ → Except (ReplayError ε) (ReplayState σ × Option ℕ)
  | 0, _, st => .ok (st, none)
  | fuel + 1, buf, st =>
    if buf = [] then .ok (st, none)
    else
      match decodeRecord crc buf with
      | .ok r =>
        match deliver header callback st r with
        | .error e => .error e
        | .ok st' => replayLoop crc header callback fuel (buf.drop r.bytesConsumed) st'
      | .error c =>
        if isTornTail c.text then .ok (st, some st.offset) else .error (.sanity c st.offset)

/-- `replay_bytes`. -/
def replayBytes (crc : List Byte → UInt32) (callback : Callback σ ε) (bytes : List Byte)
    (out : σ) : Except (ReplayError ε) (FileHeader × ReplayStats × σ) :=
  if bytes.length < FormatVersion.legacy.headerSize then .error (.sanity .walTooShort 0)
  else
    match decodeFileHeader crc bytes with
    | .error c => .error (.sanity c 0)
    | .ok header =>
      match replayLoop crc header callback bytes.length (bytes.drop header.recordOffset)
          ⟨header.recordOffset, 0, none, out⟩ with
      | .error e => .error e
      | .ok (st, tornTailAt) => .ok (header, ⟨st.recordsSeen, st.highestSeq, tornTailAt⟩, st.out)

/-- What `replay_wal` leaves of a file that is opened for writing. -/
def dropTornTail (stats : ReplayStats) (bytes : List Byte) : List Byte :=
  match stats.tornTailAt with
  | none => bytes
  | some offset => bytes.take offset

end Scanner

/-! ## Whole records -/

/-- `bs` is a record that decodes to `r`, and is taken for a torn tail when it is cut. -/
structure IsRecord (crc : List Byte → UInt32) (bs : List Byte) (r : DecodedRecord) : Prop where
  pos : 0 < bs.length
  size : r.bytesConsumed = bs.length
  read : ∀ rest, decodeRecord crc (bs ++ rest) = .ok r
  torn : ∀ part, part <+: bs → part ≠ bs →
    ∃ c, decodeRecord crc part = .error c ∧ isTornTail c.text = true

section Whole

variable {σ ε : Type} {crc : List Byte → UInt32} {header : FileHeader} {callback : Callback σ ε}

/-- The loop takes whole records off the front one after the other. -/
lemma replayLoop_append {frames : List (List Byte × DecodedRecord)}
    (hframes : ∀ f ∈ frames, IsRecord crc f.1 f.2) (tail : List Byte) {fuel : ℕ}
    (hfuel : frames.length ≤ fuel) (st : ReplayState σ) :
    replayLoop crc header callback fuel (frames.flatMap Prod.fst ++ tail) st =
      ((frames.map Prod.snd).foldlM (deliver header callback) st).bind
        (replayLoop crc header callback (fuel - frames.length) tail) := by
  induction frames generalizing fuel st with
  | nil => rfl
  | cons f frames ih =>
    have hf := hframes f mem_cons_self
    cases fuel with
    | zero => simp at hfuel
    | succ fuel =>
      have hne : (f :: frames).flatMap Prod.fst ++ tail ≠ [] := by
        intro hnil
        have hlen := congrArg List.length hnil
        have hpos := hf.pos
        simp only [flatMap_cons, length_append, length_nil] at hlen
        omega
      have hread := hf.read (frames.flatMap Prod.fst ++ tail)
      rw [replayLoop, if_neg hne, flatMap_cons, append_assoc, hread, map_cons,
        foldlM_cons]
      dsimp only
      rw [hf.size, drop_left' rfl]
      cases hdeliver : deliver header callback st f.2 with
      | error e => rfl
      | ok st' =>
        have hrest := ih (forall_mem_cons.mp hframes).2
          (Nat.le_of_succ_le_succ hfuel) st'
        rw [length_cons, Nat.add_sub_add_right]
        exact hrest

/-- At the end of the file, or at a torn tail, the loop stops. -/
lemma replayLoop_tail {tail : List Byte}
    (htail : tail = [] ∨ ∃ c, decodeRecord crc tail = .error c ∧ isTornTail c.text = true)
    {fuel : ℕ} (hfuel : tail.length ≤ fuel) (st : ReplayState σ) :
    replayLoop crc header callback fuel tail st =
      .ok (st, if tail = [] then none else some st.offset) := by
  cases fuel with
  | zero =>
    have hnil : tail = [] := eq_nil_of_length_eq_zero (by omega)
    rw [replayLoop, if_pos hnil]
  | succ fuel =>
    rw [replayLoop]
    by_cases hnil : tail = []
    · rw [if_pos hnil, if_pos hnil]
    · obtain hnil' | ⟨c, hdecode, htorn⟩ := htail
      · exact absurd hnil' hnil
      · rw [if_neg hnil, if_neg hnil, hdecode]
        dsimp only
        rw [if_pos htorn]

end Whole

/-! ## Written records -/

/-- The file header lets records of this kind through. -/
def FileHeader.Admits (header : FileHeader) (op : WalOp) : Prop :=
  ¬ (header.version = .legacy ∧ op.isAttached = true) ∧
    ¬ (header.checkpointAnchor.isSome ∧ op.isAttached = false)

instance (header : FileHeader) (op : WalOp) : Decidable (header.Admits op) :=
  inferInstanceAs (Decidable (_ ∧ _))

namespace WalRecord

/-- The encoder writes the record and counts its operations right. -/
structure Writable (r : WalRecord) : Prop where
  shaped : r.Shaped
  ops : r.ops.length < 2 ^ 32
  body : r.body.length < 2 ^ 32

instance (r : WalRecord) : Decidable r.Writable :=
  decidable_of_iff (r.Shaped ∧ r.ops.length < 2 ^ 32 ∧ r.body.length < 2 ^ 32)
    ⟨fun h => ⟨h.1, h.2.1, h.2.2⟩, fun h => ⟨h.shaped, h.ops, h.body⟩⟩

/-- The bytes of the record in the log. -/
def written (crc : List Byte → UInt32) (r : WalRecord) : List Byte :=
  recordBytes crc r.seq r.ty r.body

/-- The operations of the record with their sequence numbers. -/
def delivered (r : WalRecord) : List (PrimitiveOp × UInt64) := numbered r.seq r.ops

lemma ops_op (r : WalRecord) : r.op.ops = r.ops := by
  cases r with
  | single seq op => rfl
  | batch seq treeId envelope pushes =>
    cases envelope with
    | none => rfl
    | some envelope => rfl

lemma Writable.encode_eq {r : WalRecord} (hr : r.Writable) (crc : List Byte → UInt32) :
    r.encode crc = some (r.written crc) :=
  WalRecord.encode_eq crc hr.shaped (runsFit_of_ops hr.ops) hr.body

lemma mapM_encode {records : List WalRecord} (hr : ∀ r ∈ records, r.Writable)
    (crc : List Byte → UInt32) : records.mapM (encode crc) = some (records.map (written crc)) := by
  induction records with
  | nil => rfl
  | cons r records ih =>
    rw [mapM_cons, (hr r mem_cons_self).encode_eq crc,
      ih (forall_mem_cons.mp hr).2]
    rfl

lemma Writable.isRecord {r : WalRecord} (hr : r.Writable) (crc : List Byte → UInt32) :
    IsRecord crc (r.written crc) (r.decoded (r.written crc)) where
  pos := by
    rw [written, length_recordBytes]
    exact Nat.add_pos_right _ (by decide)
  size := rfl
  read rest := by
    rw [written, decodeRecord_recordBytes crc _ _ _ _ hr.body,
      decodeBody_body hr.shaped hr.ops hr.body]
    rfl
  torn part hpart hne := by
    obtain h | h := decodeRecord_torn crc _ _ _ hr.body hpart hne
    · exact ⟨_, h, by decide⟩
    · exact ⟨_, h, by decide⟩

end WalRecord

/-! ## Collecting the operations -/

/-- A callback that keeps what it is given. -/
def collect : Callback (List (PrimitiveOp × UInt64)) Empty :=
  fun op seq _ out => .ok (out ++ [(op, seq)])

/-- The state after more operations and records. -/
structure Collected (st st' : ReplayState (List (PrimitiveOp × UInt64)))
    (ops : List (PrimitiveOp × UInt64)) (size records : ℕ) : Prop where
  out : st'.out = st.out ++ ops
  offset : st'.offset = st.offset + size
  recordsSeen : st'.recordsSeen = st.recordsSeen + records

lemma callOps_collect (ops : List (PrimitiveOp × UInt64))
    (st : ReplayState (List (PrimitiveOp × UInt64))) :
    ∃ st', callOps collect ops st = .ok st' ∧ Collected st st' ops 0 0 := by
  induction ops generalizing st with
  | nil => exact ⟨st, rfl, by simp, rfl, rfl⟩
  | cons op ops ih =>
    obtain ⟨st', hcall, hst⟩ := ih (st.observe op.2 (st.out ++ [op]))
    refine ⟨st', hcall, ?_, hst.offset, hst.recordsSeen⟩
    rw [hst.out]
    simp [ReplayState.observe]

variable {header : FileHeader}

lemma deliver_collect {r : DecodedRecord} (hr : header.Admits r.op)
    (st : ReplayState (List (PrimitiveOp × UInt64))) :
    ∃ st', deliver header collect st r = .ok st' ∧
      Collected st st' (numbered r.seq r.op.ops) r.bytesConsumed 1 := by
  obtain ⟨st', hcall, hst⟩ := callOps_collect (numbered r.seq r.op.ops) st
  rw [deliver, if_neg hr.1, if_neg hr.2, hcall]
  refine ⟨_, rfl, hst.out, ?_, ?_⟩
  · simp only [hst.offset, Nat.add_zero]
  · simp only [hst.recordsSeen, Nat.add_zero]

/-- Records of a kind the header does not let through end the replay with an error. -/
lemma deliver_refused {σ ε : Type} {r : DecodedRecord} (hr : ¬ header.Admits r.op)
    (callback : Callback σ ε) (st : ReplayState σ) :
    ∃ e, deliver header callback st r = .error e := by
  rw [deliver]
  by_cases hversion : header.version = .legacy ∧ r.op.isAttached = true
  · rw [if_pos hversion]
    exact ⟨_, rfl⟩
  · rw [if_neg hversion]
    by_cases hmode : header.checkpointAnchor.isSome ∧ r.op.isAttached = false
    · rw [if_pos hmode]
      exact ⟨_, rfl⟩
    · exact absurd ⟨hversion, hmode⟩ hr

lemma deliver_all (crc : List Byte → UInt32) {records : List WalRecord}
    (hr : ∀ r ∈ records, header.Admits r.op) (st : ReplayState (List (PrimitiveOp × UInt64))) :
    ∃ st', (records.map (fun r => r.decoded (r.written crc))).foldlM (deliver header collect) st =
        .ok st' ∧
      Collected st st' (records.flatMap WalRecord.delivered)
        (records.map (WalRecord.written crc)).flatten.length records.length := by
  induction records generalizing st with
  | nil => exact ⟨st, rfl, by simp, rfl, rfl⟩
  | cons r records ih =>
    obtain ⟨st₁, hfirst, hst₁⟩ := deliver_collect
      (r := r.decoded (r.written crc)) (hr r mem_cons_self) st
    obtain ⟨st₂, hrest, hst₂⟩ := ih (forall_mem_cons.mp hr).2 st₁
    refine ⟨st₂, ?_, ?_, ?_, ?_⟩
    · rw [map_cons, foldlM_cons, hfirst]
      exact hrest
    · rw [hst₂.out, hst₁.out, flatMap_cons, append_assoc]
      simp only [WalRecord.delivered, WalRecord.decoded, WalRecord.ops_op]
    · rw [hst₂.offset, hst₁.offset, map_cons, flatten_cons, length_append,
        Nat.add_assoc]
      rfl
    · rw [hst₂.recordsSeen, hst₁.recordsSeen, length_cons]
      omega

/-! ## Replay of a cut file -/

section Files

variable {crc : List Byte → UInt32} {hd : List Byte} {header : FileHeader}
  {records : List WalRecord}

variable (crc) in
lemma length_le_written (hw : ∀ r ∈ records, r.Writable) :
    records.length ≤ (records.map (WalRecord.written crc)).flatten.length := by
  induction records with
  | nil => exact Nat.zero_le _
  | cons r records ih =>
    have hpos := ((hw r mem_cons_self).isRecord crc).pos
    have hrest := ih (forall_mem_cons.mp hw).2
    rw [map_cons, flatten_cons, length_append, length_cons]
    omega

lemma flatMap_frames : (records.map (fun r : WalRecord =>
    (r.written crc, r.decoded (r.written crc)))).flatMap Prod.fst =
      (records.map (WalRecord.written crc)).flatten := by
  rw [flatMap_def, List.map_map]
  rfl

/-- Behind a header, the loop runs over the rest of the file. -/
lemma replayBytes_header {σ ε : Type} (hheader : decodeFileHeader crc hd = .ok header)
    (hsize : hd.length = header.recordOffset) (callback : Callback σ ε) (rest : List Byte)
    (out : σ) :
    replayBytes crc callback (hd ++ rest) out =
      (replayLoop crc header callback (hd.length + rest.length) rest
        ⟨hd.length, 0, none, out⟩).map (fun res =>
          (header, ⟨res.1.recordsSeen, res.1.highestSeq, res.2⟩, res.1.out)) := by
  have hlong : ¬ (hd ++ rest).length < FormatVersion.legacy.headerSize := by
    rw [length_append, hsize, FileHeader.recordOffset]
    cases header.version with
    | legacy => omega
    | current =>
      simp only [FormatVersion.headerSize]
      omega
  rw [replayBytes, if_neg hlong, decodeFileHeader_append hheader]
  dsimp only
  rw [← hsize, drop_left' rfl, length_append]
  cases replayLoop crc header callback (hd.length + rest.length) rest
      ⟨hd.length, 0, none, out⟩ with
  | error e => rfl
  | ok res => rfl

/-- A file of whole records and a torn tail is replayed to its last whole record. -/
theorem replayBytes_whole (hheader : decodeFileHeader crc hd = .ok header)
    (hsize : hd.length = header.recordOffset) (hw : ∀ r ∈ records, r.Writable)
    (haccepts : ∀ r ∈ records, header.Admits r.op) {tail : List Byte}
    (htail : tail = [] ∨ ∃ c, decodeRecord crc tail = .error c ∧ isTornTail c.text = true) :
    ∃ stats, replayBytes crc collect
        (hd ++ ((records.map (WalRecord.written crc)).flatten ++ tail)) [] =
        .ok (header, stats, records.flatMap WalRecord.delivered) ∧
      stats.recordsSeen = records.length ∧
      stats.tornTailAt = if tail = [] then none
        else some (hd.length + (records.map (WalRecord.written crc)).flatten.length) := by
  have hframes : ∀ f ∈ records.map (fun r : WalRecord =>
      (r.written crc, r.decoded (r.written crc))), IsRecord crc f.1 f.2 := by
    intro f hf
    obtain ⟨r, hr, rfl⟩ := List.mem_map.mp hf
    exact (hw r hr).isRecord crc
  have hcount := length_le_written crc hw
  obtain ⟨st, hdeliver, hst⟩ := deliver_all crc haccepts ⟨hd.length, 0, none, []⟩
  rw [replayBytes_header hheader hsize, ← flatMap_frames, replayLoop_append hframes]
  · rw [List.map_map]
    change ∃ stats, Except.map _ (Except.bind (List.foldlM _ _ (records.map
      (fun r => r.decoded (r.written crc)))) _) = _ ∧ _
    rw [hdeliver]
    refine ⟨⟨st.recordsSeen, st.highestSeq, if tail = [] then none else some st.offset⟩, ?_, ?_, ?_⟩
    · change Except.map _ (replayLoop crc header collect _ tail st) = _
      rw [replayLoop_tail htail]
      · have hout : st.out = records.flatMap WalRecord.delivered := hst.out
        simp only [Except.map, hout]
      · rw [flatMap_frames, length_append, length_map]
        omega
    · exact hst.recordsSeen.trans (Nat.zero_add _)
    · rw [flatMap_frames]
      simp only [hst.offset]
  · rw [flatMap_frames, length_append, length_map]
    omega

/-- A proper part of a record is a torn tail. -/
lemma torn_of_part (hw : ∀ r ∈ records, r.Writable) {tail : List Byte}
    (hpart : tail = [] ∨ ∃ b ∈ records.map (WalRecord.written crc), tail <+: b ∧ tail ≠ b) :
    tail = [] ∨ ∃ c, decodeRecord crc tail = .error c ∧ isTornTail c.text = true := by
  refine hpart.imp_right ?_
  rintro ⟨b, hb, hpre, hne⟩
  obtain ⟨r, hr, rfl⟩ := List.mem_map.mp hb
  exact ((hw r hr).isRecord crc).torn _ hpre hne

/-- **Torn tails.**  A crash cuts a WAL anywhere behind its header.  Replay delivers the
operations of the `k` records before the cut and reports a torn tail exactly if the cut is
inside the next record; once the file ends there, records that are appended to it follow those
that were kept. -/
theorem replay_cut (hheader : decodeFileHeader crc hd = .ok header)
    (hsize : hd.length = header.recordOffset) (hw : ∀ r ∈ records, r.Writable)
    (haccepts : ∀ r ∈ records, header.Admits r.op) {encoded : List (List Byte)}
    (hencode : records.mapM (WalRecord.encode crc) = some encoded) {cut : ℕ}
    (hcut : hd.length ≤ cut) (hend : cut ≤ (hd ++ encoded.flatten).length) :
    ∃ k ≤ records.length, hd.length + offset encoded k ≤ cut ∧
      (k < records.length → cut < hd.length + offset encoded (k + 1)) ∧
      ∃ stats, replayBytes crc collect ((hd ++ encoded.flatten).take cut) [] =
          .ok (header, stats, (records.take k).flatMap WalRecord.delivered) ∧
        stats.recordsSeen = k ∧
        stats.tornTailAt = (if cut = hd.length + offset encoded k then none
          else some (hd.length + offset encoded k)) ∧
        ∀ (more : List WalRecord) (moreEncoded : List (List Byte)), (∀ r ∈ more, r.Writable) →
          (∀ r ∈ more, header.Admits r.op) →
          more.mapM (WalRecord.encode crc) = some moreEncoded →
          ∃ stats', replayBytes crc collect (dropTornTail stats
                ((hd ++ encoded.flatten).take cut) ++ moreEncoded.flatten) [] =
              .ok (header, stats',
                ((records.take k) ++ more).flatMap WalRecord.delivered) ∧
            stats'.tornTailAt = none := by
  rw [WalRecord.mapM_encode hw crc, Option.some.injEq] at hencode
  subst hencode
  rw [length_append] at hend
  have hk := wholeBlocks_le (records.map (WalRecord.written crc)) (cut - hd.length)
  have hle := offset_wholeBlocks_le (records.map (WalRecord.written crc)) (cut - hd.length)
  have hlt := @lt_offset_wholeBlocks _ (cut - hd.length) (records.map (WalRecord.written crc))
  obtain ⟨tail, htake, hpart, hempty⟩ :=
    exists_take_flatten (records.map (WalRecord.written crc)) (cut - hd.length)
  rw [length_map] at hk hlt
  generalize wholeBlocks (records.map (WalRecord.written crc)) (cut - hd.length) = k at *
  rw [← map_take] at htake
  have hbefore : ∀ r ∈ records.take k, r.Writable := fun r hr => hw r (mem_of_mem_take hr)
  have hbeforeAdmit : ∀ r ∈ records.take k, header.Admits r.op :=
    fun r hr => haccepts r (mem_of_mem_take hr)
  have hkept : ((records.take k).map (WalRecord.written crc)).flatten.length =
      offset (records.map (WalRecord.written crc)) k := by
    rw [map_take, length_flatten_take]
  have hfile : (hd ++ (records.map (WalRecord.written crc)).flatten).take cut =
      hd ++ (((records.take k).map (WalRecord.written crc)).flatten ++ tail) := by
    rw [take_append, take_of_length_le hcut, htake]
  have htornIff : tail = [] ↔ cut = hd.length + offset (records.map (WalRecord.written crc)) k := by
    rw [hempty (by omega)]
    omega
  obtain ⟨stats, hreplay, hseen, htorn⟩ :=
    replayBytes_whole hheader hsize hbefore hbeforeAdmit (torn_of_part hw hpart)
  refine ⟨k, hk, by omega, fun hlast => ?_, stats, ?_, ?_, ?_, ?_⟩
  · have hnext := hlt hlast
    omega
  · rw [hfile]
    exact hreplay
  · rw [hseen, length_take, min_eq_left hk]
  · rw [htorn, hkept]
    simp only [htornIff]
  · intro more moreEncoded hmore hmoreAdmit hmoreEncode
    rw [WalRecord.mapM_encode hmore crc, Option.some.injEq] at hmoreEncode
    subst hmoreEncode
    -- the repaired file ends with the last whole record
    have hrepaired : dropTornTail stats
        ((hd ++ (records.map (WalRecord.written crc)).flatten).take cut) =
          hd ++ ((records.take k).map (WalRecord.written crc)).flatten := by
      rw [hfile, dropTornTail, htorn]
      by_cases hnil : tail = []
      · rw [if_pos hnil, hnil, append_nil]
      · rw [if_neg hnil]
        dsimp only
        rw [← append_assoc, ← length_append, take_left' rfl]
    obtain ⟨stats', hreplay', -, htorn'⟩ := @replayBytes_whole crc hd header
      (records.take k ++ more) hheader hsize
      (fun r hr => (mem_append.mp hr).elim (hbefore r) (hmore r))
      (fun r hr => (mem_append.mp hr).elim (hbeforeAdmit r) (hmoreAdmit r)) [] (.inl rfl)
    refine ⟨stats', ?_, htorn'⟩
    rw [hrepaired, append_assoc, ← flatten_append, ← map_append]
    rw [append_nil] at hreplay'
    exact hreplay'

end Files

/-- A header of the previous format. -/
def legacyHeader : List Byte :=
  bytes 4 fileMagic ++ (bytes 4 FormatVersion.legacy.number ++ List.replicate 24 0)

def plainRecords : List WalRecord :=
  [.single 3 (.insert 1 [97] [1, 2]),
    .batch 4 1 none [.insertRun 1 2 1 1 [([98], [3]), ([99], [4])], .erase 1 [97]]]

/-- A cut in the second of two records. -/
theorem replay_cut_plainRecords : ∃ k ≤ 2, ∃ stats,
    replayBytes (fun _ => 7) collect ((legacyHeader ++
      (plainRecords.map (WalRecord.written fun _ => 7)).flatten).take 80) [] =
        .ok (⟨.legacy, 0, 0, none, 0⟩, stats, (plainRecords.take k).flatMap WalRecord.delivered) ∧
      stats.recordsSeen = k := by
  have hencode : plainRecords.mapM (WalRecord.encode fun _ => 7) =
      some (plainRecords.map (WalRecord.written fun _ => 7)) :=
    WalRecord.mapM_encode (by decide +kernel) _
  obtain ⟨k, hk, -, -, stats, hreplay, hseen, -⟩ := @replay_cut (fun _ => 7) legacyHeader
    ⟨.legacy, 0, 0, none, 0⟩ plainRecords (by decide +kernel) (by decide +kernel)
    (by decide +kernel) (by decide +kernel) _ hencode 80 (by decide +kernel) (by decide +kernel)
  exact ⟨k, hk, stats, hreplay, hseen⟩

/-- An attached batch in a file of the previous format. -/
def attachedRecord : WalRecord :=
  .batch 10 0 (some shortEnvelope) [.insert 2 [102] []]

/-- The file is complete, header and record are valid, and replay refuses it: an attached batch
does not belong behind a header of the previous format. -/
theorem attached_record_refused : attachedRecord.Writable ∧
    decodeFileHeader (fun _ => 7) legacyHeader = .ok ⟨.legacy, 0, 0, none, 0⟩ ∧
    attachedRecord.encode (fun _ => 7) = some (attachedRecord.written fun _ => 7) ∧
    (match replayBytes (fun _ => 7) collect
      (legacyHeader ++ attachedRecord.written fun _ => 7) [] with
    | .error (.sanity .attachedNeedsFormat4 32) => true
    | _ => false) = true := by
  decide +kernel

/-! ## Corruption before the tail -/

/-- The bytes begin like a record that is longer than what is left of the file. -/
def LooksTorn (buf : List Byte) : Prop :=
  value (buf.take 4) = recordMagic ∧
    buf.length < recordHeaderSize + bodyLenField buf + recordFooterSize

instance (buf : List Byte) : Decidable (LooksTorn buf) := inferInstanceAs (Decidable (_ ∧ _))

/-- The frame at the front of the bytes has the CRC that is stored behind it. -/
def FramePasses (crc : List Byte → UInt32) (buf : List Byte) : Prop :=
  (crc (buf.take (recordHeaderSize + bodyLenField buf))).toNat =
    value ((buf.drop (recordHeaderSize + bodyLenField buf)).take 4)

instance (crc : List Byte → UInt32) (buf : List Byte) : Decidable (FramePasses crc buf) :=
  inferInstanceAs (Decidable (_ = _))

section Corruption

variable {crc : List Byte → UInt32} {buf : List Byte}

lemma decodeRecord_of_looksTorn (hlen : recordHeaderSize ≤ buf.length) (h : LooksTorn buf) :
    decodeRecord crc buf = .error .recordBodyTruncated := by
  rw [decodeRecord, if_neg (not_lt.mpr hlen), if_neg (not_not.mpr h.1)]
  exact if_pos h.2

lemma decodeRecord_corrupt (hlen : recordHeaderSize ≤ buf.length) (h : ¬ LooksTorn buf)
    (hcrc : ¬ FramePasses crc buf) :
    ∃ c, decodeRecord crc buf = .error c ∧ isTornTail c.text = false := by
  rw [decodeRecord, if_neg (not_lt.mpr hlen)]
  by_cases hmagic : value (buf.take 4) = recordMagic
  · have hfits : ¬ buf.length < recordHeaderSize + bodyLenField buf + recordFooterSize :=
      fun hshort => h ⟨hmagic, hshort⟩
    rw [if_neg (not_not.mpr hmagic)]
    dsimp only
    rw [if_neg hfits]
    exact ⟨_, if_pos hcrc, by decide⟩
  · rw [if_pos hmagic]
    exact ⟨_, rfl, by decide⟩

variable (crc) in
lemma deliver_all_refused {σ ε : Type} {header : FileHeader} {records : List WalRecord}
    (callback : Callback σ ε) {q : WalRecord} (hq : q ∈ records) (hrefused : ¬ header.Admits q.op)
    (st : ReplayState σ) : ∃ e, (records.map (fun r => r.decoded (r.written crc))).foldlM
      (deliver header callback) st = .error e := by
  induction records generalizing st with
  | nil => cases hq
  | cons r records ih =>
    rw [map_cons, foldlM_cons]
    cases hdeliver : deliver header callback st (r.decoded (r.written crc)) with
    | error e => exact ⟨e, rfl⟩
    | ok st' =>
      obtain rfl | hq' := mem_cons.mp hq
      · obtain ⟨e, herror⟩ := deliver_refused (r := q.decoded (q.written crc)) hrefused callback st
        rw [hdeliver] at herror
        cases herror
      · exact ih hq' st'

/-- **Corruption before the tail.**  One record is changed, later records follow it, and no
frame that the reader could find at its place passes the CRC.  Replay reports this unless the
changed bytes look torn, that is, unless the magic is left and the length reaches past the end
of the file.  (An earlier record that the header does not let through ends the replay before.) -/
theorem corruption_reported_iff {hd : List Byte} {header : FileHeader}
    (hheader : decodeFileHeader crc hd = .ok header) (hsize : hd.length = header.recordOffset)
    {before : List WalRecord} {r : WalRecord} (hw : ∀ q ∈ before ++ [r], q.Writable)
    {beforeBytes : List (List Byte)} {original changed later : List Byte}
    (hbefore : before.mapM (WalRecord.encode crc) = some beforeBytes)
    (hr : r.encode crc = some original) (hlen : changed.length = original.length)
    (hne : changed ≠ original) (hcrc : FramePasses crc (changed ++ later) → changed = original) :
    (∃ e, replayBytes crc collect (hd ++ (beforeBytes.flatten ++ (changed ++ later))) [] =
        .error e) ↔
      ¬ LooksTorn (changed ++ later) ∨ ∃ q ∈ before, ¬ header.Admits q.op := by
  have hwBefore : ∀ q ∈ before, q.Writable := fun q hq => hw q (mem_append_left _ hq)
  have hwr : r.Writable := hw r (mem_append_right _ mem_cons_self)
  rw [WalRecord.mapM_encode hwBefore crc, Option.some.injEq] at hbefore
  rw [hwr.encode_eq crc, Option.some.injEq] at hr
  subst hbefore hr
  -- the changed bytes are as long as a record, so a header can be read there
  have hlong : recordHeaderSize ≤ (changed ++ later).length := by
    rw [length_append, hlen, WalRecord.written, length_recordBytes]
    omega
  have hnonempty : changed ++ later ≠ [] := by
    intro hnil
    rw [hnil] at hlong
    exact absurd hlong (by decide)
  have hframes : ∀ f ∈ before.map (fun q : WalRecord =>
      (q.written crc, q.decoded (q.written crc))), IsRecord crc f.1 f.2 := by
    intro f hf
    obtain ⟨q, hq, rfl⟩ := List.mem_map.mp hf
    exact (hwBefore q hq).isRecord crc
  have hcount := length_le_written crc hwBefore
  rw [replayBytes_header hheader hsize, ← flatMap_frames, replayLoop_append hframes _
    (by rw [flatMap_frames, length_append, length_map]; omega), List.map_map]
  change (∃ e, Except.map _ (Except.bind (List.foldlM _ _ (before.map
    (fun q => q.decoded (q.written crc)))) _) = _) ↔ _
  by_cases haccepts : ∀ q ∈ before, header.Admits q.op
  · obtain ⟨st, hdeliver, -⟩ := deliver_all crc haccepts ⟨hd.length, 0, none, []⟩
    have hnone : ¬ ∃ q ∈ before, ¬ header.Admits q.op := by
      simpa using haccepts
    rw [hdeliver, or_iff_left hnone]
    change (∃ e, Except.map _ (replayLoop crc header collect _ _ st) = _) ↔ _
    obtain ⟨fuel, hfuel⟩ : ∃ fuel, hd.length + ((before.map (fun q : WalRecord =>
        (q.written crc, q.decoded (q.written crc)))).flatMap Prod.fst ++
          (changed ++ later)).length - (before.map (fun q : WalRecord =>
            (q.written crc, q.decoded (q.written crc)))).length = fuel + 1 := by
      refine Nat.exists_eq_succ_of_ne_zero ?_
      rw [flatMap_frames, length_append, length_map]
      simp only [recordHeaderSize] at hlong
      omega
    rw [hfuel, replayLoop, if_neg hnonempty]
    by_cases htorn : LooksTorn (changed ++ later)
    · rw [decodeRecord_of_looksTorn hlong htorn]
      constructor
      · rintro ⟨e, herror⟩
        cases herror
      · intro hnot
        exact absurd htorn hnot
    · obtain ⟨c, hdecode, hreal⟩ := decodeRecord_corrupt hlong htorn (fun h => hne (hcrc h))
      rw [hdecode]
      dsimp only
      rw [hreal]
      constructor
      · intro _
        exact htorn
      · intro _
        exact ⟨_, rfl⟩
  · obtain ⟨q, hq, hrefused⟩ := not_forall₂.mp haccepts
    obtain ⟨e, herror⟩ := deliver_all_refused crc collect hq hrefused
      ⟨hd.length, 0, none, []⟩
    rw [herror]
    constructor
    · intro _
      exact .inr ⟨q, hq, hrefused⟩
    · intro _
      exact ⟨e, rfl⟩

end Corruption

/-- A checksum to compute with. -/
def byteSum (bs : List Byte) : UInt32 := bs.foldl (fun sum b => 31 * sum + b.toUInt32) 0

/-- The first of two records, and the second. -/
def firstRecord : WalRecord := .single 3 (.insert 1 [97] [1, 2])

def secondRecord : WalRecord := .single 4 (.erase 1 [97])

/-- A change of the value in the first of two records is reported. -/
theorem corruption_reported_value : ∃ e, replayBytes byteSum collect
    (legacyHeader ++ ([] ++ ((firstRecord.written byteSum).set 34 200 ++
      secondRecord.written byteSum))) [] = .error e :=
  (@corruption_reported_iff byteSum legacyHeader ⟨.legacy, 0, 0, none, 0⟩ (by decide +kernel)
    (by decide +kernel) [] firstRecord (by decide +kernel) [] _ _ _ rfl
      (WalRecord.Writable.encode_eq (by decide +kernel) byteSum)
    (by decide +kernel) (by decide +kernel) (by decide +kernel)).mpr (.inl (by decide +kernel))

/-- The length field of the first of two complete records is changed to `255`.  The checksum does
not fit the changed record, but replay does not get to compare it: it takes the record for a torn
tail, delivers nothing and reports the file's first record as the place to truncate it at. -/
theorem length_change_truncates :
    let changed := (firstRecord.written byteSum).set 4 255
    let file := legacyHeader ++ (changed ++ secondRecord.written byteSum)
    firstRecord.Writable ∧ secondRecord.Writable ∧
      ¬ FramePasses byteSum (changed ++ secondRecord.written byteSum) ∧
      (match replayBytes byteSum collect file [] with
      | .ok (_, stats, out) => decide (stats.tornTailAt = some 32 ∧ out = [] ∧
          dropTornTail stats file = legacyHeader)
      | .error _ => false) = true := by
  decide +kernel

end Journal
end Holt
