import Holt.Journal.Codec

/-!
# Round trip of the WAL codec

What the encoder writes is what the decoder reads.  The lemmas follow the decoder: fields,
primitive bodies, runs, the loop over the frames of a batch, the record around a body.

* `Push.reads_frame`: one frame adds exactly the operations of the push that wrote it, as long
  as the count of the batch leaves room for them.
* `reads_frames`: the loop over the frames, by induction on the pushes.
* `decodeRecord_recordBytes`: a record of any body is taken apart as it was put together.
* `decodeRecords_encode`: any list of records, one after the other.

The count of a batch is a `u32` that the encoder adds up without a check, so all this needs a
batch of fewer than `2 ^ 32` operations.  Items of empty keys and values take no bytes, and a
short body can hold more than that (`overfull_batch`).  The decoder refuses every such batch, so
the bound is exact (`records_round_trip_iff`).
-/

namespace Holt
namespace Journal

open List Option ByteReader LittleEndian

/-! ## Fields -/

variable {n : ℕ}

lemma reads_take {b : List Byte} (hn : b.length = n) : Reads (take n) b b :=
  ByteReader.reads_take _ hn

lemma reads_u8 (b : Byte) : Reads readU8 [b] b :=
  (reads_take (b := [b]) rfl).map

lemma reads_u32 (hn : n < 2 ^ 32) : Reads readU32 (bytes 4 n) n :=
  reads_number _ (lt_of_lt_of_eq hn (by norm_num))

lemma reads_u64 (n : UInt64) : Reads readU64 (bytes 8 n.toNat) n := by
  have hread := (reads_number SanityContext.bodyTruncated (w := 8)
    (lt_of_lt_of_eq n.toNat_lt (by norm_num))).map (g := UInt64.ofNat)
  rwa [UInt64.ofNat_toNat] at hread

lemma reads_digest (d : {d : List Byte // d.length = 32}) : Reads readDigest d.val d := by
  intro rest
  have htake := reads_take d.2 rest
  simp only [readDigest, StateT.run_bind, htake]
  change (StateT.run (if h : d.val.length = 32 then _ else _) rest) = _
  rw [dif_pos d.2]
  rfl

lemma reads_bytes {b : List Byte} (hb : b.length < 2 ^ 32) : Reads readBytes (writeBytes b) b :=
  reads_blob _ (lt_of_lt_of_eq hb (by norm_num))

@[simp] lemma length_writeBytes (b : List Byte) : (writeBytes b).length = 4 + b.length :=
  length_sized 4 b

/-! ## Operations of their own -/

namespace PrimitiveOp

def ty : PrimitiveOp → Byte
  | insert _ _ _ => tyInsert
  | erase _ _ => tyErase
  | renameObject _ _ _ _ => tyRenameObject

def body : PrimitiveOp → List Byte
  | insert treeId key value => insertBody treeId key value
  | erase treeId key => eraseBody treeId key
  | renameObject treeId src dst force => renameObjectBody treeId src dst force

lemma ty_cases (op : PrimitiveOp) :
    op.ty = tyInsert ∨ op.ty = tyErase ∨ op.ty = tyRenameObject := by
  cases op with
  | insert _ _ _ => exact .inl rfl
  | erase _ _ => exact .inr (.inl rfl)
  | renameObject _ _ _ _ => exact .inr (.inr rfl)

/-- The decoder takes no primitive operation for a batch or a run. -/
lemma ty_ne (op : PrimitiveOp) : ¬ (op.ty = tyBatch ∨ op.ty = tyDbBatchWithEnvelope) ∧
    op.ty ≠ tyBatchInsertRun ∧ op.ty ≠ tyBatchInsertPrefixRun := by
  obtain h | h | h := op.ty_cases
  · rw [h]
    decide
  · rw [h]
    decide
  · rw [h]
    decide

lemma reads_body {op : PrimitiveOp} (hbody : op.body.length < 2 ^ 32) :
    Reads (decodePrimitive op.ty) op.body op := by
  cases op with
  | insert treeId key value =>
    simp only [body, insertBody, length_append, length_writeBytes] at hbody
    have hkey := reads_bytes (b := key) (by omega)
    have hvalue := reads_bytes (b := value) (by omega)
    exact (reads_u64 treeId).bind (hkey.bind hvalue.bind_pure)
  | erase treeId key =>
    simp only [body, eraseBody, length_append, length_writeBytes] at hbody
    have hkey := reads_bytes (b := key) (by omega)
    exact (reads_u64 treeId).bind hkey.bind_pure
  | renameObject treeId src dst force =>
    simp only [body, renameObjectBody, length_append, length_writeBytes] at hbody
    have hsrc := reads_bytes (b := src) (by omega)
    have hdst := reads_bytes (b := dst) (by omega)
    have hforce : decide ((if force then 1 else 0 : Byte) ≠ 0) = force := by
      cases force <;> decide
    have hflag : Reads (readU8 >>= fun b => pure (renameObject treeId src dst (decide (b ≠ 0))))
        [if force then 1 else 0] (renameObject treeId src dst force) := by
      have hread := (reads_u8 (if force then 1 else 0)).bind_pure
        (g := fun b => renameObject treeId src dst (decide (b ≠ 0)))
      rwa [hforce] at hread
    exact (reads_u64 treeId).bind (hsrc.bind (hdst.bind hflag))

end PrimitiveOp

/-! ## Frames -/

namespace Push

/-- The bytes a call appends. -/
def frame : Push → List Byte
  | insert treeId key value => tyInsert :: insertBody treeId key value
  | insertRun treeId count keyLen valueLen items =>
    if count = 1 then items.flatMap (fun item => tyInsert :: insertBody treeId item.1 item.2)
    else BatchEncoder.insertRunFrame treeId count keyLen valueLen items
  | insertPrefixRun treeId pre count items =>
    if count = 1 then items.flatMap (fun item => tyInsert :: insertBody treeId item.1 item.2)
    else BatchEncoder.insertPrefixRunFrame treeId pre count items
  | erase treeId key => tyErase :: eraseBody treeId key
  | renameObject treeId src dst force => tyRenameObject :: renameObjectBody treeId src dst force

/-- A well-shaped call either appends one primitive operation or a run of at least two. -/
inductive Kind : Push → Prop
  | primitive {q : Push} (p : PrimitiveOp) (hops : q.ops = [p])
      (hframe : q.frame = p.ty :: p.body) (happly : ∀ e, q.apply e = some (e.append q.frame 1)) :
      Kind q
  | run {treeId : UInt64} {count keyLen valueLen : ℕ} {items : List (List Byte × List Byte)}
      (hcount : 2 ≤ count) (hlen : items.length = count)
      (hshape : ∀ item ∈ items, item.1.length = keyLen ∧ item.2.length = valueLen)
      (hframe : (insertRun treeId count keyLen valueLen items).frame =
        BatchEncoder.insertRunFrame treeId count keyLen valueLen items) :
      Kind (.insertRun treeId count keyLen valueLen items)
  | prefixRun {treeId : UInt64} {pre : List Byte} {count : ℕ}
      {items : List (List Byte × List Byte)} (hcount : 2 ≤ count) (hlen : items.length = count)
      (hshape : ∀ item ∈ items, pre <+: item.1)
      (hframe : (insertPrefixRun treeId pre count items).frame =
        BatchEncoder.insertPrefixRunFrame treeId pre count items) :
      Kind (.insertPrefixRun treeId pre count items)

variable {p : Push}

lemma Shaped.kind (hp : p.Shaped) : Kind p := by
  cases p with
  | insert treeId key value =>
    exact .primitive (.insert treeId key value) rfl rfl (fun _ => rfl)
  | erase treeId key => exact .primitive (.erase treeId key) rfl rfl (fun _ => rfl)
  | renameObject treeId src dst force =>
    exact .primitive (.renameObject treeId src dst force) rfl rfl (fun _ => rfl)
  | insertRun treeId count _ _ items | insertPrefixRun treeId _ count items =>
    obtain ⟨hpos, hlen, hshape⟩ := hp
    by_cases hone : count = 1
    · subst hone
      obtain ⟨item, rfl⟩ := length_eq_one_iff.mp hlen
      exact .primitive (.insert treeId item.1 item.2) rfl (append_nil _) (fun _ => by
        rw [show frame _ = _ from append_nil _]
        rfl)
    · first
      | exact .run (by omega) hlen hshape (if_neg hone)
      | exact .prefixRun (by omega) hlen hshape (if_neg hone)

lemma Kind.ops_pos (hp : Kind p) : 0 < p.ops.length := by
  cases hp with
  | primitive op hops hframe happly =>
    rw [hops]
    exact Nat.one_pos
  | run hcount hlen hshape hframe | prefixRun hcount hlen hshape hframe =>
    rw [ops, length_map]
    omega

lemma keyLen_lt {treeId : UInt64} {count keyLen valueLen : ℕ}
    {items : List (List Byte × List Byte)} (hne : 0 < items.length)
    (hshape : ∀ item ∈ items, item.1.length = keyLen ∧ item.2.length = valueLen)
    (hframe : (BatchEncoder.insertRunFrame treeId count keyLen valueLen items).length < 2 ^ 32) :
    keyLen < 2 ^ 32 ∧ valueLen < 2 ^ 32 := by
  obtain ⟨item, rest, rfl⟩ := exists_cons_of_length_pos hne
  obtain ⟨hkey, hvalue⟩ := hshape item mem_cons_self
  simp only [BatchEncoder.insertRunFrame, length_cons, length_append, length_bytes,
    flatMap_cons, hkey, hvalue] at hframe
  omega

lemma Kind.exists_apply (hp : Kind p) (hops : p.ops.length < 2 ^ 32)
    (hbytes : p.frame.length < 2 ^ 32) (e : BatchEncoder) : ∃ e', p.apply e = some e' := by
  cases hp with
  | primitive op hop hframe happly => exact ⟨_, happly e⟩
  | run hcount hlen hshape hframe =>
    rw [hframe] at hbytes
    obtain ⟨hkey, hvalue⟩ := keyLen_lt (by omega) hshape hbytes
    rw [ops, length_map, hlen] at hops
    exact ⟨_, (if_neg (by omega)).trans (if_pos ⟨hops, hkey, hvalue, hlen⟩)⟩
  | prefixRun hcount hlen hshape hframe =>
    rw [ops, length_map, hlen] at hops
    exact ⟨_, (if_neg (by omega)).trans
      (if_pos ⟨hops, fun item hitem => (hshape item hitem).length_le, hlen⟩)⟩

/-- A call that does not panic appends its frame and counts its operations. -/
lemma Kind.of_apply (hp : Kind p) {e e' : BatchEncoder} (h : p.apply e = some e') :
    p.ops.length < 2 ^ 32 ∧ e' = e.append p.frame (UInt32.ofNat p.ops.length) := by
  cases hp with
  | primitive op hop hframe happly =>
    rw [happly, Option.some.injEq] at h
    rw [hop]
    exact ⟨by norm_num, h.symm⟩
  | run hcount hlen hshape hframe =>
    rw [apply, BatchEncoder.pushInsertRun, if_neg (by omega), ite_none_right_eq_some,
      Option.some.injEq] at h
    obtain ⟨⟨hfits, -⟩, rfl⟩ := h
    rw [ops, length_map, hlen, hframe]
    exact ⟨hfits, rfl⟩
  | prefixRun hcount hlen hshape hframe =>
    rw [apply, BatchEncoder.pushInsertPrefixRun, if_neg (by omega), ite_none_right_eq_some,
      Option.some.injEq] at h
    obtain ⟨⟨hfits, -⟩, rfl⟩ := h
    rw [ops, length_map, hlen, hframe]
    exact ⟨hfits, rfl⟩
/-- One frame adds the operations of its call to those read before, if the batch's count has
room for them. -/
lemma Kind.reads_frame (hp : Kind p) (hbytes : p.frame.length < 2 ^ 32) {batchCount : ℕ}
    (hbatch : batchCount < 2 ^ 32) {acc : List PrimitiveOp}
    (hroom : acc.length + p.ops.length ≤ batchCount) :
    Reads (decodeFrame batchCount acc) p.frame (acc ++ p.ops) := by
  cases hp with
  | primitive op hop hframe happly =>
    obtain ⟨hbatchTy, hrun, hpre⟩ := op.ty_ne
    rw [hframe, length_cons] at hbytes
    rw [hframe, hop]
    refine (reads_u8 op.ty).bind ?_
    rw [if_neg hbatchTy, if_neg hrun, if_neg hpre]
    exact (op.reads_body (by omega)).bind_pure
  | @run treeId count keyLen valueLen items hcount hlen hshape hframe =>
    rw [hframe] at hbytes ⊢
    obtain ⟨hkey, hvalue⟩ := keyLen_lt (by omega) hshape hbytes
    rw [ops, length_map, hlen] at hroom
    have hitems : Reads (times (do
        let key ← take keyLen
        let value ← take valueLen
        pure (key, value)) count) (items.flatMap (fun item => item.1 ++ item.2)) items := by
      rw [← hlen]
      refine Reads.times (fun item hitem => ?_)
      obtain ⟨hk, hv⟩ := hshape item hitem
      exact (reads_take hk).bind (reads_take hv).bind_pure
    refine (reads_u8 tyBatchInsertRun).bind ?_
    rw [if_neg (by decide), if_pos rfl]
    refine (reads_u64 treeId).bind ((reads_u32 (by omega)).bind ?_)
    rw [if_neg (by omega), if_neg (by omega)]
    exact (reads_u32 hkey).bind ((reads_u32 hvalue).bind hitems.bind_pure)
  | @prefixRun treeId pre count items hcount hlen hshape hframe =>
    rw [hframe] at hbytes ⊢
    rw [ops, length_map, hlen] at hroom
    simp only [BatchEncoder.insertPrefixRunFrame, length_cons, length_append,
      length_bytes, length_writeBytes] at hbytes
    have hitems : Reads (times (do
        let suffix ← readBytes
        let value ← readBytes
        pure (pre ++ suffix, value)) count)
        (items.flatMap (fun item => writeBytes (item.1.drop pre.length) ++ writeBytes item.2))
        items := by
      rw [← hlen]
      refine Reads.times (fun item hitem => ?_)
      have hsize := (sublist_flatten_of_mem (List.mem_map_of_mem (f := fun item =>
        writeBytes (item.1.drop pre.length) ++ writeBytes item.2) hitem)).length_le
      rw [← flatMap_def] at hsize
      simp only [length_append, length_writeBytes] at hsize
      have hkey : (pre ++ item.1.drop pre.length, item.2) = item := by
        rw [prefix_iff_eq_append.mp (hshape item hitem)]
      have hvalue : Reads (readBytes >>= fun value => pure (pre ++ item.1.drop pre.length, value))
          (writeBytes item.2) (pre ++ item.1.drop pre.length, item.2) :=
        (reads_bytes (by omega)).bind_pure
      rw [hkey] at hvalue
      exact (reads_bytes (by omega)).bind hvalue
    refine (reads_u8 tyBatchInsertPrefixRun).bind ?_
    rw [if_neg (by decide), if_neg (by decide), if_pos rfl]
    refine (reads_u64 treeId).bind ((reads_u32 (by omega)).bind ?_)
    rw [if_neg (by omega), if_neg (by omega)]
    exact (reads_bytes (by omega)).bind hitems.bind_pure

end Push

/-! ## Batches -/

section Batches

variable {pushes : List Push}

variable (hp : ∀ p ∈ pushes, Push.Kind p)
include hp

lemma length_le_ops :
    pushes.length ≤ (pushes.flatMap Push.ops).length := by
  induction pushes with
  | nil => exact le_refl 0
  | cons p pushes ih =>
    have hpos := (hp p mem_cons_self).ops_pos
    have hrest := ih (forall_mem_cons.mp hp).2
    rw [flatMap_cons, length_append, length_cons]
    omega

/-- The loop over the frames of a batch whose count is right. -/
lemma reads_frames (hbytes : (pushes.flatMap Push.frame).length < 2 ^ 32) {batchCount : ℕ}
    (hbatch : batchCount < 2 ^ 32) {acc : List PrimitiveOp}
    (hcount : acc.length + (pushes.flatMap Push.ops).length = batchCount) {fuel : ℕ}
    (hfuel : pushes.length ≤ fuel) :
    Reads (decodeFrames batchCount fuel acc) (pushes.flatMap Push.frame)
      (acc ++ pushes.flatMap Push.ops) := by
  induction pushes generalizing acc fuel with
  | nil =>
    have hdone : ¬ acc.length < batchCount := by
      simp only [flatMap_nil, length_nil] at hcount
      omega
    rw [flatMap_nil, flatMap_nil, append_nil]
    cases fuel with
    | zero => exact reads_pure acc
    | succ fuel =>
      rw [decodeFrames, if_neg hdone]
      exact reads_pure acc
  | cons p pushes ih =>
    have hkind := hp p mem_cons_self
    have hpos := hkind.ops_pos
    simp only [flatMap_cons, length_append] at hbytes hcount
    cases fuel with
    | zero => simp at hfuel
    | succ fuel =>
      rw [decodeFrames, if_pos (by omega), flatMap_cons, flatMap_cons,
        ← append_assoc]
      refine (hkind.reads_frame (by omega) hbatch (by omega)).bind ?_
      refine ih (forall_mem_cons.mp hp).2 (by omega) ?_ ?_
      · rw [length_append]
        omega
      · simpa using hfuel

/-- What a sequence of calls that do not panic leaves in the encoder. -/
lemma foldlM_apply_inv {e e' : BatchEncoder} (h : pushes.foldlM Push.apply e = some e') :
    (∀ p ∈ pushes, p.ops.length < 2 ^ 32) ∧ e' = e.append (pushes.flatMap Push.frame)
      (UInt32.ofNat (pushes.flatMap Push.ops).length) := by
  induction pushes generalizing e with
  | nil =>
    cases h
    exact ⟨fun p hp => absurd hp not_mem_nil, by simp [BatchEncoder.append]⟩
  | cons p pushes ih =>
    rw [foldlM_cons, bind_eq_bind, bind_eq_some_iff] at h
    obtain ⟨e₁, hfirst, hrest⟩ := h
    obtain ⟨hfits, rfl⟩ := (hp p mem_cons_self).of_apply hfirst
    obtain ⟨hruns, rfl⟩ := ih (forall_mem_cons.mp hp).2 hrest
    refine ⟨fun q hq => ?_, ?_⟩
    · obtain rfl | hq := mem_cons.mp hq
      · exact hfits
      · exact hruns q hq
    · simp only [BatchEncoder.append, flatMap_cons, length_append, append_assoc,
        UInt32.ofNat_add, UInt32.add_assoc]

lemma foldlM_apply (hruns : ∀ p ∈ pushes, p.ops.length < 2 ^ 32)
    (hbytes : (pushes.flatMap Push.frame).length < 2 ^ 32) (e : BatchEncoder) :
    pushes.foldlM Push.apply e = some (e.append (pushes.flatMap Push.frame)
      (UInt32.ofNat (pushes.flatMap Push.ops).length)) := by
  suffices h : ∃ e', pushes.foldlM Push.apply e = some e' by
    obtain ⟨e', he'⟩ := h
    rw [he', (foldlM_apply_inv hp he').2]
  induction pushes generalizing e with
  | nil => exact ⟨e, rfl⟩
  | cons p pushes ih =>
    rw [flatMap_cons, length_append] at hbytes
    obtain ⟨e₁, he₁⟩ :=
      (hp p mem_cons_self).exists_apply (hruns p mem_cons_self) (by omega) e
    rw [foldlM_cons, he₁]
    exact ih (forall_mem_cons.mp hp).2 (forall_mem_cons.mp hruns).2 (by omega) e₁

omit hp

lemma reads_envelope (e : JournalEnvelope) :
    Reads decodeJournalEnvelope (encodeJournalEnvelope e) e := by
  refine (reads_u8 journalEnvelopeWireVersion).bind ?_
  rw [if_pos rfl]
  refine (reads_u64 _).bind ((reads_digest _).bind ((reads_u64 _).bind ((reads_digest _).bind
    ?_)))
  rw [← append_nil (writeBytes e.payload)]
  refine (reads_bytes e.fits).bind ?_
  rw [show JournalEnvelope.new ⟨_, _⟩ ⟨_, _⟩ e.payload = .ok e from e.new_self]
  exact reads_pure e

end Batches

/-! ## Records -/

namespace WalRecord

def ty : WalRecord → Byte
  | single _ op => op.ty
  | batch _ _ none _ => tyBatch
  | batch _ _ (some _) _ => tyDbBatchWithEnvelope

/-- The body of a record. -/
def body : WalRecord → List Byte
  | single _ op => op.body
  | batch _ treeId envelope pushes => bytes 8 treeId.toNat ++
      (bytes 4 ((pushes.flatMap Push.ops).length % 2 ^ 32) ++
        ((envelope.map encodeJournalEnvelope).getD [] ++ pushes.flatMap Push.frame))

/-- The count of each run fits its field. -/
def RunsFit : WalRecord → Prop
  | single _ _ => True
  | batch _ _ _ pushes => ∀ p ∈ pushes, p.ops.length < 2 ^ 32

variable {r : WalRecord}

lemma runsFit_of_ops (hops : r.ops.length < 2 ^ 32) : r.RunsFit := by
  cases r with
  | single seq op => exact trivial
  | batch seq treeId envelope pushes =>
    intro p hp
    have hle := (sublist_flatten_of_mem (List.mem_map_of_mem (f := Push.ops) hp)).length_le
    rw [← flatMap_def] at hle
    exact lt_of_le_of_lt hle hops

lemma body_append (seq treeId : UInt64) (envelope : Option JournalEnvelope) (pushes : List Push) :
    ((BatchEncoder.beginRecord seq treeId envelope).append (pushes.flatMap Push.frame)
      (UInt32.ofNat (pushes.flatMap Push.ops).length)).body =
        body (.batch seq treeId envelope pushes) := by
  simp only [BatchEncoder.body, BatchEncoder.append, BatchEncoder.beginRecord, UInt32.zero_add,
    UInt32.toNat_ofNat', body, nil_append]

lemma encode_eq (crc : List Byte → UInt32) (hr : r.Shaped) (hruns : r.RunsFit)
    (hbody : r.body.length < 2 ^ 32) : r.encode crc = some (recordBytes crc r.seq r.ty r.body) := by
  cases r with
  | single seq op =>
    cases op with
    | insert treeId key value | erase treeId key | renameObject treeId src dst force =>
      exact if_pos hbody
  | batch seq treeId envelope pushes =>
    have hframes : (pushes.flatMap Push.frame).length < 2 ^ 32 := by
      simp only [body, length_append] at hbody
      omega
    rw [encode, foldlM_apply (fun p hp => (hr p hp).kind) hruns hframes, bind_some,
      BatchEncoder.finish, body_append, writeRecord, if_pos hbody]
    cases envelope with
    | none => rfl
    | some envelope => rfl

/-- The body decodes to the operations the writer asked for. -/
lemma decodeBody_body (hr : r.Shaped) (hops : r.ops.length < 2 ^ 32)
    (hbody : r.body.length < 2 ^ 32) : decodeBody r.ty r.body = .ok r.op := by
  -- it is enough that the reader takes the whole body
  suffices hread : Reads (decodeBodyInto r.ty) r.body r.op by
    have hrun := hread []
    rw [append_nil] at hrun
    rw [decodeBody, hrun]
  cases r with
  | single seq op =>
    obtain ⟨hbatch, -, -⟩ := op.ty_ne
    rw [not_or] at hbatch
    rw [decodeBodyInto, ty, if_neg hbatch.1, if_neg hbatch.2]
    exact (op.reads_body hbody).bind_pure
  | batch seq treeId envelope pushes =>
    have hkind : ∀ p ∈ pushes, Push.Kind p := fun p hp => (hr p hp).kind
    have hframes : (pushes.flatMap Push.frame).length < 2 ^ 32 := by
      simp only [body, length_append] at hbody
      omega
    change (pushes.flatMap Push.ops).length < 2 ^ 32 at hops
    have hnone : ([] : List PrimitiveOp).length + (pushes.flatMap Push.ops).length =
        (pushes.flatMap Push.ops).length := Nat.zero_add _
    have hinner := reads_frames hkind hframes hops hnone (length_le_ops hkind)
    have hcount := reads_u32 hops
    rw [nil_append] at hinner
    cases envelope with
    | none =>
      rw [body, Nat.mod_eq_of_lt hops]
      exact (reads_u64 treeId).bind (hcount.bind hinner.bind_pure)
    | some envelope =>
      rw [body, Nat.mod_eq_of_lt hops]
      exact (reads_u64 treeId).bind (hcount.bind ((reads_envelope envelope).bind
        hinner.bind_pure))

end WalRecord

/-! ## Records in a log -/

/-- The header of a record. -/
def recordHeader (seq : UInt64) (ty : Byte) (bodyLen : ℕ) : List Byte :=
  bytes 4 recordMagic ++ (bytes 4 bodyLen ++ (bytes 8 seq.toNat ++ [ty]))

@[simp] lemma length_recordHeader (seq : UInt64) (ty : Byte) (n : ℕ) :
    (recordHeader seq ty n).length = recordHeaderSize := by
  simp [recordHeader, recordHeaderSize]

lemma covered_eq (seq : UInt64) (ty : Byte) (body : List Byte) :
    covered seq ty body = recordHeader seq ty body.length ++ body := by
  simp [covered, recordHeader]

section Header

variable (crc : List Byte → UInt32) (seq : UInt64) (ty : Byte) {n : ℕ} (rest : List Byte)

lemma value_magic : value ((recordHeader seq ty n ++ rest).take 4) = recordMagic := by
  rw [recordHeader, append_assoc, take_left' (length_bytes 4 _)]
  exact value_bytes_of_lt (by decide)

lemma bodyLenField_header (hn : n < 2 ^ 32) :
    bodyLenField (recordHeader seq ty n ++ rest) = n := by
  rw [bodyLenField, recordHeader, append_assoc, drop_left' (length_bytes 4 _),
    append_assoc, take_left' (length_bytes 4 _)]
  exact value_bytes_of_lt (lt_of_lt_of_eq hn (by norm_num))

lemma value_seq : UInt64.ofNat (value (((recordHeader seq ty n ++ rest).drop 8).take 8)) = seq := by
  have hsplit : recordHeader seq ty n ++ rest =
      (bytes 4 recordMagic ++ bytes 4 n) ++ (bytes 8 seq.toNat ++ ([ty] ++ rest)) := by
    simp [recordHeader]
  rw [hsplit, drop_left' (by simp), take_left' (length_bytes 8 _),
    value_bytes_of_lt (lt_of_lt_of_eq seq.toNat_lt (by norm_num)), UInt64.ofNat_toNat]

lemma getD_ty : (recordHeader seq ty n ++ rest).getD 16 0 = ty := by
  have hsplit : recordHeader seq ty n ++ rest =
      (bytes 4 recordMagic ++ (bytes 4 n ++ bytes 8 seq.toNat)) ++ (ty :: rest) := by
    simp [recordHeader]
  rw [hsplit, getD_eq_getElem?_getD, getElem?_append_right (by simp)]
  simp

/-- What `decode_record` does behind a header. -/
lemma decodeRecord_header (hn : n < 2 ^ 32) :
    decodeRecord crc (recordHeader seq ty n ++ rest) =
      if rest.length < n + recordFooterSize then .error .recordBodyTruncated
      else if (crc (recordHeader seq ty n ++ rest.take n)).toNat ≠ value ((rest.drop n).take 4) then
        .error .recordCrcMismatch
      else (decodeBody ty (rest.take n)).map
        (fun op => ⟨op, seq, recordHeaderSize + n + recordFooterSize⟩) := by
  have hlen : (recordHeader seq ty n ++ rest).length = recordHeaderSize + rest.length := by
    rw [length_append, length_recordHeader]
  have hheader : ¬ recordHeaderSize + rest.length < recordHeaderSize := by omega
  have hshort : recordHeaderSize + rest.length < recordHeaderSize + n + recordFooterSize ↔
      rest.length < n + recordFooterSize := by omega
  have hbody : (recordHeader seq ty n ++ rest).drop recordHeaderSize = rest :=
    drop_left' (length_recordHeader seq ty n)
  have hdrop : (recordHeader seq ty n ++ rest).drop (recordHeaderSize + n) = rest.drop n := by
    rw [← drop_drop, hbody]
  have htake : (recordHeader seq ty n ++ rest).take (recordHeaderSize + n) =
      recordHeader seq ty n ++ rest.take n := by
    rw [← length_recordHeader seq ty n, take_length_add_append]
  simp only [decodeRecord, hlen, if_neg hheader, value_magic, ne_eq, not_true_eq_false, if_false,
    bodyLenField_header seq ty rest hn, value_seq, getD_ty, hshort, hdrop, htake, hbody]
  cases decodeBody ty (rest.take n) with
  | error e => rfl
  | ok op => rfl

variable (body : List Byte)

lemma length_recordBytes : (recordBytes crc seq ty body).length =
    recordHeaderSize + body.length + recordFooterSize := by
  rw [recordBytes, covered_eq, length_append, length_append, length_recordHeader,
    length_bytes, recordFooterSize]

lemma decodeRecord_recordBytes (hbody : body.length < 2 ^ 32) :
    decodeRecord crc (recordBytes crc seq ty body ++ rest) = (decodeBody ty body).map
      (fun op => ⟨op, seq, (recordBytes crc seq ty body).length⟩) := by
  have hsplit : recordBytes crc seq ty body ++ rest = recordHeader seq ty body.length ++
      (body ++ (bytes 4 (crc (covered seq ty body)).toNat ++ rest)) := by
    simp [recordBytes, covered_eq]
  have hlong : ¬ (body ++ (bytes 4 (crc (covered seq ty body)).toNat ++ rest)).length <
      body.length + recordFooterSize := by
    simp only [length_append, length_bytes, recordFooterSize]
    omega
  have hcrc : value (bytes 4 (crc (covered seq ty body)).toNat) =
      (crc (covered seq ty body)).toNat :=
    value_bytes_of_lt (lt_of_lt_of_eq (crc _).toNat_lt (by norm_num))
  rw [hsplit, decodeRecord_header crc seq ty _ hbody, if_neg hlong, take_left' rfl,
    drop_left' rfl, take_left' (length_bytes 4 _), hcrc, ← covered_eq,
    if_neg (not_not.mpr rfl), length_recordBytes]

/-- A record that ends before its last byte is taken for a torn write. -/
lemma decodeRecord_torn (hbody : body.length < 2 ^ 32) {part : List Byte}
    (hpart : part <+: recordBytes crc seq ty body) (hne : part ≠ recordBytes crc seq ty body) :
    decodeRecord crc part = .error .recordHeaderTruncated ∨
      decodeRecord crc part = .error .recordBodyTruncated := by
  by_cases hshort : part.length < recordHeaderSize
  · left
    rw [decodeRecord, if_pos hshort]
  · right
    -- the header is there, so what is missing is missing from the body or the CRC
    have hheader : recordHeader seq ty body.length <+: recordBytes crc seq ty body := by
      rw [recordBytes, covered_eq, append_assoc]
      exact prefix_append _ _
    obtain ⟨rest, rfl⟩ := prefix_of_prefix_length_le hheader hpart
      (by rw [length_recordHeader]; omega)
    have hlt : (recordHeader seq ty body.length ++ rest).length <
        (recordBytes crc seq ty body).length :=
      lt_of_le_of_ne hpart.length_le (fun heq => hne (hpart.eq_of_length heq))
    rw [length_recordBytes, length_append, length_recordHeader] at hlt
    rw [decodeRecord_header crc seq ty rest hbody, if_pos (by omega)]

end Header

/-- Decode `n` records, one after the other. -/
def decodeRecords (crc : List Byte → UInt32) :
    ℕ → List Byte → Except SanityContext (List DecodedRecord × List Byte)
  | 0, buf => .ok ([], buf)
  | n + 1, buf => do
    let r ← decodeRecord crc buf
    let (rs, rest) ← decodeRecords crc n (buf.drop r.bytesConsumed)
    pure (r :: rs, rest)

/-- What a record should decode to. -/
def WalRecord.decoded (r : WalRecord) (bytes : List Byte) : DecodedRecord :=
  ⟨r.op, r.seq, bytes.length⟩

/-- Records written by the encoder, in any number and of any kind and shape, decode one after
the other to the operations, the sequence number and the envelope they were written with, and
each is consumed to its last byte. -/
theorem decodeRecords_encode (crc : List Byte → UInt32) {records : List WalRecord}
    (hshaped : ∀ r ∈ records, r.Shaped) (hops : ∀ r ∈ records, r.ops.length < 2 ^ 32)
    (hbody : ∀ r ∈ records, r.body.length < 2 ^ 32) (rest : List Byte) :
    ∃ encoded, records.mapM (WalRecord.encode crc) = some encoded ∧
      decodeRecords crc records.length (encoded.flatten ++ rest) =
        .ok (List.zipWith WalRecord.decoded records encoded, rest) := by
  induction records with
  | nil => exact ⟨[], rfl, rfl⟩
  | cons r records ih =>
    obtain ⟨encoded, hencode, hdecode⟩ := ih (forall_mem_cons.mp hshaped).2
      (forall_mem_cons.mp hops).2
      (forall_mem_cons.mp hbody).2
    have hr := WalRecord.encode_eq crc (hshaped r mem_cons_self)
      (WalRecord.runsFit_of_ops (hops r mem_cons_self)) (hbody r mem_cons_self)
    refine ⟨recordBytes crc r.seq r.ty r.body :: encoded, ?_, ?_⟩
    · rw [mapM_cons, hr, hencode]
      rfl
    · have hfirst := decodeRecord_recordBytes crc r.seq r.ty (encoded.flatten ++ rest) r.body
        (hbody r mem_cons_self)
      rw [WalRecord.decodeBody_body (hshaped r mem_cons_self) (hops r mem_cons_self)
        (hbody r mem_cons_self)] at hfirst
      rw [flatten_cons, append_assoc, length_cons, decodeRecords, hfirst]
      change (decodeRecords crc records.length ((recordBytes crc r.seq r.ty r.body ++
        (encoded.flatten ++ rest)).drop (recordBytes crc r.seq r.ty r.body).length) >>= _) = _
      rw [drop_left' rfl, hdecode]
      rfl

/-! ## A count that wraps -/

namespace Push

variable {p : Push}

lemma Kind.frame_pos (hp : Kind p) : 0 < p.frame.length := by
  cases hp with
  | primitive _ _ hframe _ | run _ _ _ hframe | prefixRun _ _ _ hframe =>
    rw [hframe]
    exact Nat.succ_pos _

/-- A run that has more operations than the batch's count has room for. -/
lemma Kind.decodeFrame_exceeds (hp : Kind p) (hops : p.ops.length < 2 ^ 32) {batchCount : ℕ}
    {acc : List PrimitiveOp} (hopen : acc.length < batchCount)
    (hexceeds : batchCount < acc.length + p.ops.length) (rest : List Byte) :
    ∃ c, (decodeFrame batchCount acc).run (p.frame ++ rest) = .error c ∧
      (c = .insertRunExceeds ∨ c = .insertPrefixRunExceeds) := by
  cases hp with
  | primitive op hop hframe happly =>
    rw [hop, length_singleton] at hexceeds
    omega
  | @run treeId count keyLen valueLen items hcount hlen hshape hframe =>
    rw [ops, length_map, hlen] at hops hexceeds
    refine ⟨.insertRunExceeds, ?_, .inl rfl⟩
    rw [hframe, BatchEncoder.insertRunFrame, ← singleton_append, append_assoc]
    refine ((reads_u8 tyBatchInsertRun).run_bind _).trans ?_
    rw [if_neg (by decide), if_pos rfl, append_assoc, append_assoc]
    refine ((reads_u64 treeId).run_bind _).trans (((reads_u32 hops).run_bind _).trans ?_)
    rw [if_neg (by omega), if_pos hexceeds]
    rfl
  | @prefixRun treeId pre count items hcount hlen hshape hframe =>
    rw [ops, length_map, hlen] at hops hexceeds
    refine ⟨.insertPrefixRunExceeds, ?_, .inr rfl⟩
    rw [hframe, BatchEncoder.insertPrefixRunFrame, ← singleton_append, append_assoc]
    refine ((reads_u8 tyBatchInsertPrefixRun).run_bind _).trans ?_
    rw [if_neg (by decide), if_neg (by decide), if_pos rfl, append_assoc, append_assoc]
    refine ((reads_u64 treeId).run_bind _).trans (((reads_u32 hops).run_bind _).trans ?_)
    rw [if_neg (by omega), if_pos hexceeds]
    rfl

end Push

section Overfull

variable {pushes : List Push}

/-- A batch whose count is too small is refused at a run, or leaves bytes behind. -/
lemma decodeFrames_overfull (hp : ∀ p ∈ pushes, Push.Kind p)
    (hruns : ∀ p ∈ pushes, p.ops.length < 2 ^ 32)
    (hbytes : (pushes.flatMap Push.frame).length < 2 ^ 32) {batchCount : ℕ}
    (hbatch : batchCount < 2 ^ 32) {acc : List PrimitiveOp} (hacc : acc.length ≤ batchCount)
    (hcount : batchCount < acc.length + (pushes.flatMap Push.ops).length) {fuel : ℕ}
    (hfuel : batchCount ≤ acc.length + fuel) :
    (∃ c, (decodeFrames batchCount fuel acc).run (pushes.flatMap Push.frame) = .error c ∧
        (c = .insertRunExceeds ∨ c = .insertPrefixRunExceeds)) ∨
      ∃ ops b rest, (decodeFrames batchCount fuel acc).run (pushes.flatMap Push.frame) =
        .ok (ops, b :: rest) := by
  induction pushes generalizing acc fuel with
  | nil =>
    rw [flatMap_nil, length_nil] at hcount
    omega
  | cons p pushes ih =>
    have hkind := hp p mem_cons_self
    have hfits := hruns p mem_cons_self
    simp only [flatMap_cons, length_append] at hbytes hcount ⊢
    by_cases hopen : acc.length < batchCount
    · cases fuel with
      | zero => omega
      | succ fuel =>
        rw [decodeFrames, if_pos hopen]
        by_cases hroom : acc.length + p.ops.length ≤ batchCount
        · have hread := hkind.reads_frame (by omega) hbatch hroom
          rw [hread.run_bind]
          have hpos := hkind.ops_pos
          exact ih (forall_mem_cons.mp hp).2
            (forall_mem_cons.mp hruns).2 (by omega)
            (by rw [length_append]; omega) (by rw [length_append]; omega)
            (by rw [length_append]; omega)
        · obtain ⟨c, herror, hc⟩ := hkind.decodeFrame_exceeds hfits hopen (by omega)
            (pushes.flatMap Push.frame)
          rw [StateT.run_bind, herror]
          exact .inl ⟨c, rfl, hc⟩
    · -- the loop ends with this frame still to read
      obtain ⟨b, bs, hframe⟩ := exists_cons_of_length_pos hkind.frame_pos
      have hdone : decodeFrames batchCount fuel acc = pure acc := by
        cases fuel with
        | zero => rfl
        | succ fuel => rw [decodeFrames, if_neg hopen]
      rw [hdone, hframe]
      exact .inr ⟨acc, b, bs ++ pushes.flatMap Push.frame, rfl⟩

variable {r : WalRecord} {crc : List Byte → UInt32} {encoded : List Byte}

/-- What the encoder wrote fits in a record, whatever its count says. -/
lemma WalRecord.encode_inv (hr : r.Shaped) (h : r.encode crc = some encoded) :
    r.RunsFit ∧ r.body.length < 2 ^ 32 ∧ encoded = recordBytes crc r.seq r.ty r.body := by
  cases r with
  | single seq op =>
    cases op with
    | insert | erase | renameObject =>
      obtain ⟨hbody, hbytes⟩ := ite_none_right_eq_some.mp h
      exact ⟨trivial, hbody, (Option.some.inj hbytes).symm⟩
  | batch seq treeId envelope pushes =>
    obtain ⟨e, hfold, hfinish⟩ := bind_eq_some_iff.mp h
    obtain ⟨hruns, rfl⟩ := foldlM_apply_inv (fun p hq => (hr p hq).kind) hfold
    rw [BatchEncoder.finish, WalRecord.body_append, writeRecord, ite_none_right_eq_some,
      Option.some.injEq] at hfinish
    obtain ⟨hbody, rfl⟩ := hfinish
    refine ⟨hruns, hbody, ?_⟩
    cases envelope with
    | none => rfl
    | some envelope => rfl

/-- A batch of `2 ^ 32` operations or more is refused. -/
lemma decodeBody_overfull (hr : r.Shaped) (hruns : r.RunsFit) (hbody : r.body.length < 2 ^ 32)
    (hcount : 2 ^ 32 ≤ r.ops.length) : ∃ c, decodeBody r.ty r.body = .error c ∧
      (c = .insertRunExceeds ∨ c = .insertPrefixRunExceeds ∨ c = .trailingBytes) := by
  cases r with
  | single seq op => exact absurd hcount (by simp [WalRecord.ops])
  | batch seq treeId envelope pushes =>
    change 2 ^ 32 ≤ (pushes.flatMap Push.ops).length at hcount
    have hmod : (pushes.flatMap Push.ops).length % 2 ^ 32 < 2 ^ 32 := Nat.mod_lt _ (by norm_num)
    have hframes : (pushes.flatMap Push.frame).length < 2 ^ 32 := by
      simp only [WalRecord.body, length_append] at hbody
      omega
    have hloop := decodeFrames_overfull (fun p hq => (hr p hq).kind) hruns hframes hmod
      (Nat.zero_le _ : ([] : List PrimitiveOp).length ≤ _) (by rw [length_nil]; omega)
      (by rw [length_nil, Nat.zero_add])
    obtain ⟨wrap, hrun⟩ : ∃ wrap : List PrimitiveOp → WalOp,
        (decodeBodyInto (WalRecord.batch seq treeId envelope pushes).ty).run
            (WalRecord.batch seq treeId envelope pushes).body =
          ((decodeFrames ((pushes.flatMap Push.ops).length % 2 ^ 32)
            ((pushes.flatMap Push.ops).length % 2 ^ 32) []).run (pushes.flatMap Push.frame)).map
              (fun res => (wrap res.1, res.2)) := by
      cases envelope with
      | none =>
        refine ⟨.batch, ?_⟩
        rw [decodeBodyInto, WalRecord.ty, if_pos rfl, WalRecord.body, (reads_u64 treeId).run_bind,
          (reads_u32 hmod).run_bind, StateT.run_bind]
        rfl
      | some envelope =>
        refine ⟨.dbBatchWithEnvelope envelope, ?_⟩
        rw [decodeBodyInto, WalRecord.ty, if_neg (by decide), if_pos rfl, WalRecord.body,
          (reads_u64 treeId).run_bind, (reads_u32 hmod).run_bind, Option.map_some,
          Option.getD_some, (reads_envelope envelope).run_bind, StateT.run_bind]
        rfl
    rw [decodeBody, hrun]
    obtain ⟨c, herror, hc⟩ | ⟨ops, b, rest, hleft⟩ := hloop
    · rw [herror]
      exact ⟨c, rfl, hc.elim .inl (fun h => .inr (.inl h))⟩
    · rw [hleft]
      exact ⟨.trailingBytes, rfl, .inr (.inr rfl)⟩

/-- Records that are read back as they were written have few enough operations. -/
lemma ops_lt_of_decodeRecords {records : List WalRecord} (hshaped : ∀ r ∈ records, r.Shaped)
    {encoded : List (List Byte)} (hencode : records.mapM (WalRecord.encode crc) = some encoded)
    {rest : List Byte} (hdecode : decodeRecords crc records.length (encoded.flatten ++ rest) =
      .ok (List.zipWith WalRecord.decoded records encoded, rest)) :
    ∀ r ∈ records, r.ops.length < 2 ^ 32 := by
  induction records generalizing encoded with
  | nil => exact fun r hr => absurd hr not_mem_nil
  | cons r records ih =>
    obtain ⟨hr, hshaped⟩ := forall_mem_cons.mp hshaped
    rw [mapM_cons, bind_eq_bind, bind_eq_some_iff] at hencode
    obtain ⟨first, hfirst, htail⟩ := hencode
    obtain ⟨more, hmore, hencoded⟩ := bind_eq_some_iff.mp htail
    cases hencoded
    obtain ⟨hruns, hbody, rfl⟩ := WalRecord.encode_inv hr hfirst
    have hrecord := decodeRecord_recordBytes crc r.seq r.ty (more.flatten ++ rest) r.body hbody
    rw [flatten_cons, append_assoc, length_cons, decodeRecords, hrecord] at hdecode
    have hops : r.ops.length < 2 ^ 32 := by
      by_contra hfull
      obtain ⟨c, herror, -⟩ := decodeBody_overfull hr hruns hbody (not_lt.mp hfull)
      rw [herror] at hdecode
      cases hdecode
    rw [WalRecord.decodeBody_body hr hops hbody] at hdecode
    change (decodeRecords crc records.length ((recordBytes crc r.seq r.ty r.body ++
      (more.flatten ++ rest)).drop (recordBytes crc r.seq r.ty r.body).length) >>= _) = _ at hdecode
    rw [drop_left' rfl] at hdecode
    refine forall_mem_cons.mpr ⟨hops, ih hshaped hmore ?_⟩
    cases hrest : decodeRecords crc records.length (more.flatten ++ rest) with
    | error e =>
      rw [hrest] at hdecode
      cases hdecode
    | ok p =>
      rw [hrest] at hdecode
      obtain ⟨hrs, hleft⟩ := Prod.mk.inj (Except.ok.inj hdecode)
      rw [← (List.cons.inj hrs).2, ← hleft]

/-- Records written by the encoder, in any number and of any kind and shape, decode one after the
other to the operations, the sequence number and the envelope they were written with, each
consumed to its last byte, exactly if every batch stands for fewer than `2 ^ 32` operations. -/
theorem records_round_trip_iff (crc : List Byte → UInt32) {records : List WalRecord}
    (hshaped : ∀ r ∈ records, r.Shaped) (hbody : ∀ r ∈ records, r.body.length < 2 ^ 32)
    (rest : List Byte) :
    (∃ encoded, records.mapM (WalRecord.encode crc) = some encoded ∧
      decodeRecords crc records.length (encoded.flatten ++ rest) =
        .ok (List.zipWith WalRecord.decoded records encoded, rest)) ↔
      ∀ r ∈ records, r.ops.length < 2 ^ 32 :=
  ⟨fun ⟨_, hencode, hdecode⟩ => ops_lt_of_decodeRecords hshaped hencode hdecode,
    fun hops => decodeRecords_encode crc hshaped hops hbody rest⟩

end Overfull

/-- An envelope with a payload of one byte. -/
def shortEnvelope : JournalEnvelope :=
  ⟨⟨7, ⟨List.replicate 32 0, rfl⟩⟩, ⟨8, ⟨List.replicate 32 1, rfl⟩⟩, [9], rfl, by simp, by decide⟩

/-- One record of every kind. -/
def mixedRecords : List WalRecord :=
  [.single 3 (.insert 1 [97] [1, 2]),
    .batch 4 1 none [.insertRun 1 2 1 1 [([98], [3]), ([99], [4])], .erase 1 [97],
      .insertPrefixRun 1 [100, 47] 2 [([100, 47, 1], [5]), ([100, 47], [])],
      .renameObject 1 [98] [101] true],
    .batch 10 0 (some shortEnvelope) [.insertRun 2 1 1 0 [([102], [])]],
    .single 11 (.renameObject 1 [101] [103] false)]

theorem records_round_trip_mixedRecords :
    ∃ encoded, mixedRecords.mapM (WalRecord.encode fun _ => 7) = some encoded ∧
      decodeRecords (fun _ => 7) 4 (encoded.flatten ++ [0]) =
        .ok (List.zipWith WalRecord.decoded mixedRecords encoded, [0]) :=
  (records_round_trip_iff _ (by decide +kernel) (by decide +kernel) [0]).mpr (by decide +kernel)

/-- A run of `n` empty items. -/
def emptyRun (n : ℕ) : Push := .insertRun 0 n 0 0 (List.replicate n ([], []))

lemma emptyRun_shaped (hn : 1 ≤ n) : (emptyRun n).Shaped := by
  refine ⟨hn, length_replicate, fun item hitem => ?_⟩
  rw [eq_of_mem_replicate hitem]
  exact ⟨rfl, rfl⟩

lemma length_emptyRun_ops (n : ℕ) : (emptyRun n).ops.length = n := by
  rw [emptyRun, Push.ops, length_map, length_replicate]

lemma flatMap_replicate_empty (n : ℕ) :
    (List.replicate n (([], []) : List Byte × List Byte)).flatMap (fun item => item.1 ++ item.2) =
      [] := by
  rw [flatMap_eq_nil_iff]
  intro item hitem
  rw [eq_of_mem_replicate hitem]
  rfl

lemma emptyRun_frame (hn : 2 ≤ n) : (emptyRun n).frame =
    tyBatchInsertRun :: (bytes 8 0 ++ (bytes 4 n ++ (bytes 4 0 ++ bytes 4 0))) := by
  rw [emptyRun, Push.frame, if_neg (by omega), BatchEncoder.insertRunFrame,
    flatMap_replicate_empty, append_nil]
  rfl

lemma decodeBody_count_zero (b : Byte) (rest : List Byte) :
    decodeBody tyBatch (bytes 8 0 ++ (bytes 4 0 ++ (b :: rest))) = .error .trailingBytes := by
  have hread : Reads (decodeBodyInto tyBatch) (bytes 8 (0 : UInt64).toNat ++ bytes 4 0)
      (.batch []) := by
    have hops : Reads (decodeFrames 0 0 [] >>= fun ops => pure (WalOp.batch ops)) [] (.batch []) :=
      (reads_pure []).bind_pure
    have hcount := (reads_u32 (n := 0) (by norm_num)).bind (f := fun count =>
      decodeFrames count count [] >>= fun ops => pure (WalOp.batch ops)) hops
    rw [append_nil] at hcount
    exact (reads_u64 0).bind hcount
  have hrun := hread (b :: rest)
  rw [append_assoc, show (0 : UInt64).toNat = 0 from rfl] at hrun
  rw [decodeBody, hrun]

/-- A batch of two runs of `n` empty items. -/
def emptyRuns (n : ℕ) : WalRecord := .batch 0 0 none [emptyRun n, emptyRun n]

section EmptyRuns

variable {n : ℕ} (hn : 2 ≤ n)

include hn in
lemma emptyRuns_shaped : (emptyRuns n).Shaped := by
  intro p hp
  obtain rfl : p = emptyRun n := by simpa using hp
  exact emptyRun_shaped (by omega)

lemma emptyRuns_runsFit (hfit : n < 2 ^ 32) : (emptyRuns n).RunsFit := by
  intro p hp
  obtain rfl : p = emptyRun n := by simpa using hp
  rwa [length_emptyRun_ops]

lemma emptyRuns_body (hwrap : (n + n) % 2 ^ 32 = 0) : (emptyRuns n).body =
    bytes 8 0 ++ (bytes 4 0 ++ ((emptyRun n).frame ++ (emptyRun n).frame)) := by
  have hops : ([emptyRun n, emptyRun n].flatMap Push.ops).length = n + n := by
    simp only [flatMap_cons, flatMap_nil, append_nil, length_append,
      length_emptyRun_ops]
  have hframes : [emptyRun n, emptyRun n].flatMap Push.frame =
      (emptyRun n).frame ++ (emptyRun n).frame := by
    rw [flatMap_cons, flatMap_cons, flatMap_nil, append_nil]
  rw [emptyRuns, WalRecord.body, hops, hframes, hwrap]
  rfl

include hn in
lemma length_emptyRuns_body (hwrap : (n + n) % 2 ^ 32 = 0) : (emptyRuns n).body.length = 54 := by
  rw [emptyRuns_body hwrap, emptyRun_frame hn]
  simp

/-- If the count wraps to zero, the decoder finds bytes it does not expect. -/
lemma emptyRuns_refused (hn : 2 ≤ n) (hwrap : (n + n) % 2 ^ 32 = 0) :
    decodeBody (emptyRuns n).ty (emptyRuns n).body = .error .trailingBytes := by
  rw [emptyRuns_body hwrap, emptyRun_frame hn, cons_append]
  exact decodeBody_count_zero _ _

end EmptyRuns

/-- Two runs of `2 ^ 31` empty items make a batch of `2 ^ 32` operations in a body of 54 bytes.
The count wraps to zero, and the record that the encoder writes is refused by the decoder. -/
theorem overfull_batch : ∃ r : WalRecord, r.Shaped ∧ r.body.length < 2 ^ 32 ∧
    ∀ crc, ∃ encoded, r.encode crc = some encoded ∧
      decodeRecord crc encoded = .error .trailingBytes := by
  obtain ⟨n, hn, hfit, hwrap⟩ : ∃ n, 2 ≤ n ∧ n < 2 ^ 32 ∧ (n + n) % 2 ^ 32 = 0 :=
    ⟨2 ^ 31, by norm_num⟩
  have hlen : (emptyRuns n).body.length < 2 ^ 32 := by
    rw [length_emptyRuns_body hn hwrap]
    norm_num
  have hshaped := emptyRuns_shaped hn
  refine ⟨emptyRuns n, hshaped, hlen, fun crc =>
    ⟨_, WalRecord.encode_eq crc hshaped (emptyRuns_runsFit hfit) hlen, ?_⟩⟩
  have hdecode := decodeRecord_recordBytes crc (emptyRuns n).seq (emptyRuns n).ty []
    (emptyRuns n).body hlen
  rw [append_nil, emptyRuns_refused hn hwrap] at hdecode
  exact hdecode

end Journal
end Holt
