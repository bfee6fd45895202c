import Holt.Lib.ByteReader
import Holt.Tree.KeyListing
import Holt.Tree.SizedBatch

/-!
# Checkpoint images

`DB::export_checkpoint` writes every live family of a DB into one byte string
(`api/checkpoint.rs`): a header with the number of families, then for each family its name and
a block of its keys and values, all of them behind a 32-bit length.
`DB::install_checkpoint` decodes such an image and creates and fills the families in a fresh
DB.

The encoder writes every length with `as u32`, so a block of 4 GiB or more is written behind a
length that is too small.  `image_round_trip_iff` says that this, and a number of families that
does not fit either, is the only way in which an exported DB is not installed with the content
it had; and that conversely every byte string the decoder accepts is the encoding of what it
was decoded to.

`std::str::from_utf8` is a parameter.  A family is the map its tree stands for; the range scan
over its snapshot lists that map in byte order.  An export first flushes the write deltas of the
catalog and of the families, which fails if one of their keys extends another one by a NUL
byte; the content of a DB has no NUL bytes in its names and keys here (`Content.nulFree`).
-/

namespace Holt
namespace Db

open List Option LittleEndian ByteReader Holt.Tree

/-- The errors of `decode`. -/
inductive ImageError
  | badHeader
  | truncatedLength
  | truncatedBody
  | trailingBytes
deriving DecidableEq

/-- One decoded family: its name and its keys and values. -/
abbrev ImageFamily := List Byte × List (Key × Value)

/-! ## Encoding -/

/-- `MAGIC`, the bytes of `holtdbi1`. -/
def imageMagic : List Byte := [0x68, 0x6f, 0x6c, 0x74, 0x64, 0x62, 0x69, 0x31]

/-- `HEADER_LEN`. -/
def imageHeaderLen : ℕ := 8 + 4

/-- `begin`. -/
def beginImage (familyCount : ℕ) : List Byte := imageMagic ++ bytes 4 familyCount

/-- `put_kv`. -/
def putKv (block : List Byte) (key : Key) (value : Value) : List Byte :=
  block ++ sized 4 key ++ sized 4 value

/-- `put_family`. -/
def putFamily (buf name block : List Byte) : List Byte := buf ++ sized 4 name ++ sized 4 block

/-- The block of a family. -/
def encodeBlock (kv : List (Key × Value)) : List Byte :=
  kv.foldl (fun block e => putKv block e.1 e.2) []

/-- The image of a list of families. -/
def encodeImage (families : List ImageFamily) : List Byte :=
  families.foldl (fun buf f => putFamily buf f.1 (encodeBlock f.2)) (beginImage families.length)

/-! ## Decoding -/

/-- `parse_header`. -/
def parseHeader (image : List Byte) : Except ImageError ℕ :=
  if image.length < imageHeaderLen ∨ image.take 8 ≠ imageMagic then .error .badHeader
  else .ok (value ((image.drop 8).take 4))

/-- `take`: a 32-bit length and as many bytes. -/
def takeSized : Reader ImageError (List Byte) := do
  let len ← number .truncatedLength 4
  ByteReader.take .truncatedBody len

/-- The body of the inner loop of `decode`. -/
def readKv : Reader ImageError (Key × Value) := do
  let key ← takeSized
  let value ← takeSized
  pure (key, value)

/-- The inner loop of `decode`, over the bytes of the block that are left.  Every turn takes two
lengths off, so the length of the block is fuel enough. -/
def readBlock : ℕ → List Byte → Except ImageError (List (Key × Value))
  | _, [] => .ok []
  | 0, _ :: _ => .ok []
  | fuel + 1, b :: block =>
    match readKv.run (b :: block) with
    | .error e => .error e
    | .ok (entry, rest) => (readBlock fuel rest).map (entry :: ·)

/-- The body of the outer loop of `decode`. -/
def readFamily : Reader ImageError ImageFamily := do
  let name ← takeSized
  let block ← takeSized
  let kv ← StateT.lift (readBlock block.length block)
  pure (name, kv)

/-- `decode`. -/
def decodeImage (image : List Byte) : Except ImageError (List ImageFamily) :=
  match parseHeader image with
  | .error e => .error e
  | .ok familyCount =>
    match (times readFamily familyCount).run (image.drop imageHeaderLen) with
    | .error e => .error e
    | .ok (families, []) => .ok families
    | .ok (_, _ :: _) => .error .trailingBytes

/-! ## What the encoder writes -/

/-- The bytes of an entry of a block. -/
def kvBytes (e : Key × Value) : List Byte := sized 4 e.1 ++ sized 4 e.2

/-- The bytes of a family. -/
def familyBytes (f : ImageFamily) : List Byte := sized 4 f.1 ++ sized 4 (encodeBlock f.2)

lemma encodeBlock_eq (kv : List (Key × Value)) : encodeBlock kv = kv.flatMap kvBytes := by
  simp only [encodeBlock, putKv, kvBytes, flatMap_eq_foldl, append_assoc]

lemma encodeImage_eq (families : List ImageFamily) :
    encodeImage families = beginImage families.length ++ families.flatMap familyBytes := by
  simp only [encodeImage, putFamily, append_assoc]
  exact foldl_append_eq_append ..

@[simp] lemma length_beginImage (n : ℕ) : (beginImage n).length = imageHeaderLen := by
  simp [beginImage, imageMagic, imageHeaderLen]

lemma length_encodeBlock (kv : List (Key × Value)) :
    (encodeBlock kv).length = (kv.map (fun e => 8 + e.1.length + e.2.length)).sum := by
  rw [encodeBlock_eq]
  induction kv with
  | nil => rfl
  | cons e kv ih =>
    rw [flatMap_cons, length_append, ih, map_cons, sum_cons, kvBytes,
      length_append, length_sized, length_sized]
    omega

/-! ## What the decoder accepts -/

variable {buf rest : List Byte}

lemma takeSized_inv {bs : List Byte} (h : takeSized.run buf = .ok (bs, rest)) :
    bs.length < 256 ^ 4 ∧ buf = sized 4 bs ++ rest := by
  obtain ⟨len, mid, hlen, htake⟩ := run_bind_inv h
  obtain ⟨hlt, hbuf⟩ := number_inv hlen
  obtain ⟨rfl, hmid⟩ := take_inv htake
  exact ⟨hlt, by rw [hbuf, hmid, sized, append_assoc]⟩

lemma reads_takeSized {bs : List Byte} (h : bs.length < 256 ^ 4) :
    Reads takeSized (sized 4 bs) bs :=
  (reads_number _ h).bind (reads_take _ rfl)

/-- The lengths of an entry fit their fields. -/
def FitsKv (e : Key × Value) : Prop := e.1.length < 256 ^ 4 ∧ e.2.length < 256 ^ 4

/-- The lengths of a family fit their fields. -/
def FitsFamily (f : ImageFamily) : Prop :=
  f.1.length < 256 ^ 4 ∧ (encodeBlock f.2).length < 256 ^ 4 ∧ ∀ e ∈ f.2, FitsKv e

/-- Only an encoded record is taken for one. -/
lemma readKv_inv {e : Key × Value} (h : readKv.run buf = .ok (e, rest)) :
    FitsKv e ∧ buf = kvBytes e ++ rest := by
  obtain ⟨key, mid, hkey, hmore⟩ := run_bind_inv h
  obtain ⟨value, mid', hvalue, hpure⟩ := run_bind_inv hmore
  obtain ⟨rfl, rfl⟩ := run_pure_inv hpure
  obtain ⟨hkeyLen, hbuf⟩ := takeSized_inv hkey
  obtain ⟨hvalueLen, hmid⟩ := takeSized_inv hvalue
  exact ⟨⟨hkeyLen, hvalueLen⟩, by rw [hbuf, hmid, kvBytes, append_assoc]⟩

lemma reads_readKv {e : Key × Value} (h : FitsKv e) : Reads readKv (kvBytes e) e :=
  (reads_takeSized h.1).bind (reads_takeSized h.2).bind_pure

lemma length_kvBytes_pos (e : Key × Value) : 0 < (kvBytes e).length := by
  simp [kvBytes]

/-- A block that is read is the encoding of its records. -/
lemma readBlock_inv {fuel : ℕ} {block : List Byte} {kv : List (Key × Value)}
    (hfuel : block.length ≤ fuel) (h : readBlock fuel block = .ok kv) :
    (∀ e ∈ kv, FitsKv e) ∧ block = encodeBlock kv := by
  rw [encodeBlock_eq]
  induction fuel generalizing block kv with
  | zero =>
    obtain rfl := eq_nil_of_length_eq_zero (Nat.le_zero.mp hfuel)
    obtain rfl : [] = kv := by simpa [readBlock] using h
    simp
  | succ fuel ih =>
    cases block with
    | nil =>
      obtain rfl : [] = kv := by simpa [readBlock] using h
      simp
    | cons b block =>
      rw [readBlock] at h
      cases hread : readKv.run (b :: block) with
      | error e => simp [hread] at h
      | ok p =>
        obtain ⟨e, rest⟩ := p
        obtain ⟨hfits, hbuf⟩ := readKv_inv hread
        rw [hread] at h
        cases hrest : readBlock fuel rest with
        | error err => simp [hrest, Except.map] at h
        | ok kv' =>
          obtain rfl : e :: kv' = kv := by simpa [hrest, Except.map] using h
          have hlen := congrArg List.length hbuf
          rw [length_append] at hlen
          have hpos := length_kvBytes_pos e
          obtain ⟨hall, hblock⟩ := ih (by omega) hrest
          rw [hbuf, hblock]
          exact ⟨forall_mem_cons.mpr ⟨hfits, hall⟩, rfl⟩

/-- The records of an encoded block are read back. -/
lemma readBlock_encodeBlock {kv : List (Key × Value)} (hfits : ∀ e ∈ kv, FitsKv e) (fuel : ℕ)
    (hfuel : (encodeBlock kv).length ≤ fuel) : readBlock fuel (encodeBlock kv) = .ok kv := by
  rw [encodeBlock_eq] at hfuel ⊢
  induction kv generalizing fuel with
  | nil => cases fuel <;> rfl
  | cons e kv ih =>
    obtain ⟨he, hkv⟩ := forall_mem_cons.mp hfits
    have hpos := length_kvBytes_pos e
    rw [flatMap_cons, length_append] at hfuel
    cases fuel with
    | zero => omega
    | succ fuel =>
      rw [flatMap_cons]
      cases hbytes : kvBytes e ++ kv.flatMap kvBytes with
      | nil =>
        have := congrArg List.length hbytes
        simp only [length_append, length_nil] at this
        omega
      | cons b block =>
        rw [readBlock, ← hbytes, reads_readKv he]
        simp only [ih hkv fuel (by omega), Except.map]

/-- Only an encoded family is taken for one. -/
lemma readFamily_inv {f : ImageFamily} (h : readFamily.run buf = .ok (f, rest)) :
    FitsFamily f ∧ buf = familyBytes f ++ rest := by
  obtain ⟨name, mid, hname, hmore⟩ := run_bind_inv h
  obtain ⟨block, mid', hblock, hmore⟩ := run_bind_inv hmore
  obtain ⟨kv, mid'', hkv, hpure⟩ := run_bind_inv hmore
  obtain ⟨rfl, rfl⟩ := run_pure_inv hpure
  obtain ⟨hnameLen, hbuf⟩ := takeSized_inv hname
  obtain ⟨hblockLen, hmid⟩ := takeSized_inv hblock
  -- the block is read to its end, and nothing after it is touched
  have hlift : readBlock block.length block = .ok kv ∧ mid'' = mid' := by
    change (readBlock block.length block >>= fun kv => pure (kv, mid')) = _ at hkv
    cases hread : readBlock block.length block with
    | error e =>
      rw [hread] at hkv
      cases hkv
    | ok kv' =>
      rw [hread] at hkv
      obtain ⟨rfl, rfl⟩ : kv' = kv ∧ mid' = mid'' := by
        simpa [bind, Except.bind, pure, Except.pure] using hkv
      exact ⟨rfl, rfl⟩
  obtain ⟨hread, rfl⟩ := hlift
  obtain ⟨hfits, rfl⟩ := readBlock_inv le_rfl hread
  exact ⟨⟨hnameLen, hblockLen, hfits⟩, by rw [hbuf, hmid, familyBytes, append_assoc]⟩

lemma reads_readFamily {f : ImageFamily} (h : FitsFamily f) :
    Reads readFamily (familyBytes f) f := by
  have hblock : Reads (StateT.lift (readBlock (encodeBlock f.2).length (encodeBlock f.2)) :
      Reader ImageError (List (Key × Value))) [] f.2 := by
    intro rest
    change (readBlock _ _ >>= fun kv => pure (kv, rest)) = _
    rw [readBlock_encodeBlock h.2.2 _ le_rfl]
    rfl
  have hrest := (reads_takeSized h.2.1).bind (f := fun block => do
    let kv ← StateT.lift (readBlock block.length block)
    pure (f.1, kv)) hblock.bind_pure
  rw [append_nil] at hrest
  exact (reads_takeSized h.1).bind hrest

/-- The header holds the number of families modulo `2 ^ 32`. -/
lemma parseHeader_beginImage (n : ℕ) (rest : List Byte) :
    parseHeader (beginImage n ++ rest) = .ok (n % 256 ^ 4) := by
  have hlen : ¬ ((beginImage n ++ rest).length < imageHeaderLen ∨
      (beginImage n ++ rest).take 8 ≠ imageMagic) := by
    rw [length_append, length_beginImage]
    simp [beginImage, imageMagic]
  rw [parseHeader, if_neg hlen]
  have hfield : ((beginImage n ++ rest).drop 8).take 4 = bytes 4 n := by
    have hdrop : (beginImage n ++ rest).drop 8 = bytes 4 n ++ rest := by
      simp [beginImage, imageMagic]
    rw [hdrop, take_left' (length_bytes 4 n)]
  rw [hfield, value_bytes]

/-- An image whose lengths fit is decoded to what it was encoded from. -/
theorem decodeImage_encodeImage {families : List ImageFamily} (hcount : families.length < 256 ^ 4)
    (hfits : ∀ f ∈ families, FitsFamily f) : decodeImage (encodeImage families) = .ok families := by
  have hread : (times readFamily families.length).run (families.flatMap familyBytes) =
      .ok (families, []) := by
    have := Reads.times (fun f hf => reads_readFamily (hfits f hf)) []
    rwa [append_nil] at this
  rw [encodeImage_eq, decodeImage, parseHeader_beginImage, Nat.mod_eq_of_lt hcount,
    drop_left' (length_beginImage _)]
  simp only [hread]

variable {n : ℕ}

/-- A header that is accepted is one that the encoder writes. -/
lemma parseHeader_inv {image : List Byte} (h : parseHeader image = .ok n) :
    n < 256 ^ 4 ∧ image = beginImage n ++ image.drop imageHeaderLen := by
  rw [parseHeader] at h
  by_cases hbad : image.length < imageHeaderLen ∨ image.take 8 ≠ imageMagic
  · rw [if_pos hbad] at h
    cases h
  · rw [if_neg hbad] at h
    obtain rfl : value ((image.drop 8).take 4) = n := by simpa using h
    obtain ⟨hlong, hmagic⟩ := not_or.mp hbad
    have hfield : ((image.drop 8).take 4).length = 4 := by
      rw [length_take, length_drop]
      simp only [imageHeaderLen] at hlong
      omega
    constructor
    · exact (value_lt _).trans_eq (by rw [hfield])
    · have hbytes := bytes_value ((image.drop 8).take 4)
      rw [hfield] at hbytes
      rw [beginImage, hbytes, ← not_not.mp hmagic, append_assoc]
      have hrest : image.drop imageHeaderLen = (image.drop 8).drop 4 := by
        rw [drop_drop]
        rfl
      rw [hrest, take_append_drop, take_append_drop]

/-- What the decoder returns fits, and its encoding is what the decoder was given. -/
theorem decodeImage_inv {image : List Byte} {families : List ImageFamily}
    (h : decodeImage image = .ok families) :
    families.length < 256 ^ 4 ∧ (∀ f ∈ families, FitsFamily f) ∧ encodeImage families = image := by
  rw [decodeImage] at h
  cases hheader : parseHeader image with
  | error e => simp [hheader] at h
  | ok n =>
    obtain ⟨hn, himage⟩ := parseHeader_inv hheader
    rw [hheader] at h
    cases hread : (times readFamily n).run (image.drop imageHeaderLen) with
    | error e => simp [hread] at h
    | ok p =>
      obtain ⟨families', rest⟩ := p
      cases rest with
      | cons b rest => simp [hread] at h
      | nil =>
        obtain rfl : families' = families := by simpa [hread] using h
        have hinv : Inverts readFamily FitsFamily familyBytes := fun _ _ _ h => readFamily_inv h
        obtain ⟨hlen, hfits, hbody⟩ := hinv.times hread
        refine ⟨by omega, hfits, ?_⟩
        rw [encodeImage_eq, hlen, himage, hbody, append_nil]

/-! ## Export and install -/

/-- The errors of `install_checkpoint`. -/
inductive InstallError
  | image (e : ImageError)
  | nonUtf8Name
  | emptyName
  | reservedName
  | treeExists
  | write (e : WriteError)
deriving DecidableEq

/-- The live families of a DB, in the order of its catalog. -/
abbrev Families := List (Key × VersionedMap)

/-- What a snapshot's range scan of a family lists. -/
def listKv (m : VersionedMap) : List (Key × Value) :=
  m.sortedKeys.filterMap (fun k => (m.lookup k).map (fun r => (k, r.value)))

/-- `DB::export_checkpoint`. -/
def exportCheckpoint (families : Families) : List Byte :=
  encodeImage (families.map (fun f => (f.1, listKv f.2)))

section Install

variable (isUtf8 : List Byte → Bool)

/-- The checks of `DB::create_tree` on a name: `validate_tree_name`, that the name is free, and
that the catalog can store it. -/
def createTree (families : Families) (name : Key) : Except InstallError Unit :=
  if name = [] then .error .emptyName
  else if name.head? = some 0 then .error .reservedName
  else if name ∈ families.map Prod.fst then .error .treeExists
  else if maxFieldLen < name.length + 1 then .error (.write (.keyTooLong (name.length + 1)))
  else .ok ()

/-- The puts of one family into its new tree, numbered from `seq`. -/
def putAll (m : VersionedMap) (seq : ℕ) : List (Key × Value) → Except InstallError VersionedMap
  | [] => .ok m
  | (key, value) :: rest =>
    match validateInsertShape key value with
    | .error e => .error (.write e)
    | .ok () => putAll (m.insertConditional key value seq .always).1 (seq + 1) rest

/-- The loop of `DB::install_checkpoint`.  Creating a tree takes two sequence numbers for its
entry in the catalog. -/
def installFamilies (families : Families) (seq : ℕ) :
    List ImageFamily → Except InstallError Families
  | [] => .ok families
  | (name, kv) :: rest =>
    if isUtf8 name then
      match createTree families name with
      | .error e => .error e
      | .ok () =>
        match putAll ∅ (seq + 2) kv with
        | .error e => .error e
        | .ok m => installFamilies (families ++ [(name, m)]) (seq + 2 + kv.length) rest
    else .error .nonUtf8Name

/-- `DB::install_checkpoint` into a fresh DB whose next sequence number is `seq`. -/
def installCheckpoint (seq : ℕ) (image : List Byte) : Except InstallError Families :=
  match decodeImage image with
  | .error e => .error (.image e)
  | .ok families => installFamilies isUtf8 [] seq families

/-- The families of a DB: names that `create_tree` took, each once, and records that `put`
took, with names and keys that no tree refuses. -/
structure Content where
  families : Families
  utf8 : ∀ f ∈ families, isUtf8 f.1 = true
  names : ∀ f ∈ families, f.1 ≠ [] ∧ f.1.head? ≠ some 0 ∧ f.1.length + 1 ≤ maxFieldLen
  distinct : (families.map Prod.fst).Nodup
  shaped : ∀ f ∈ families, ∀ k r, f.2.lookup k = some r → validateInsertShape k r.value = .ok ()
  nulFree : ∀ f ∈ families, f.1.NulFree ∧ f.2.NulFree

end Install

/-- The values a DB has for a family, if it has the family. -/
def valuesOf (families : Families) (name : Key) : Option (Key → Option Value) :=
  (families.find? (fun f => f.1 = name)).map (fun f k => (f.2.lookup k).map Record.value)

/-- The same family names with the same values. -/
def SameContent (families families' : Families) : Prop :=
  ∀ name, valuesOf families name = valuesOf families' name

/-! ## The records of a family -/

/-- The value a map has for a key. -/
abbrev valueAt (m : VersionedMap) (k : Key) : Option Value := (m.lookup k).map Record.value

variable {k : Key}

lemma mem_listKv {m : VersionedMap} {v : Value} : (k, v) ∈ listKv m ↔ valueAt m k = some v := by
  simp only [listKv, mem_filterMap, VersionedMap.mem_sortedKeys, map_eq_some_iff,
    Prod.mk.injEq]
  constructor
  · rintro ⟨k', -, r, hr, rfl, rfl⟩
    exact ⟨r, hr, rfl⟩
  · rintro ⟨r, hr, rfl⟩
    exact ⟨k, by rw [hr]; rfl, r, hr, rfl, rfl⟩

lemma nodup_listKv_keys (m : VersionedMap) : ((listKv m).map Prod.fst).Nodup := by
  rw [listKv, map_filterMap]
  refine List.Nodup.filterMap (fun k k' b hk hk' => ?_) ?_
  · simp only [mem_def, Option.map_map, map_eq_some_iff] at hk hk'
    obtain ⟨_, -, rfl⟩ := hk
    obtain ⟨_, -, rfl⟩ := hk'
    rfl
  · rw [VersionedMap.sortedKeys_eq_sort]
    exact Finset.sort_nodup _ _

lemma valueAt_insert (m : VersionedMap) (key k : Key) (value : Value) (seq : ℕ) :
    valueAt (m.insertConditional key value seq .always).1 k =
      if k = key then some value else valueAt m k := by
  have hins : (m.insertConditional key value seq .always).1 = m.insert key ⟨value, seq⟩ := rfl
  rw [valueAt, hins, VersionedMap.lookup_insert_eq]
  split_ifs <;> rfl

section PutAll

variable {m m' : VersionedMap} {seq : ℕ} {kv : List (Key × Value)}

lemma putAll_cons_inv {e : Key × Value} (h : putAll m seq (e :: kv) = .ok m') :
    putAll (m.insertConditional e.1 e.2 seq .always).1 (seq + 1) kv = .ok m' := by
  obtain ⟨key, value⟩ := e
  rw [putAll] at h
  cases hshape : validateInsertShape key value with
  | error err => simp [hshape] at h
  | ok u => simpa [hshape] using h

/-- Records of the right shape are all put. -/
lemma putAll_of_shaped (m : VersionedMap) (seq : ℕ)
    (h : ∀ e ∈ kv, validateInsertShape e.1 e.2 = .ok ()) : ∃ m', putAll m seq kv = .ok m' := by
  induction kv generalizing m seq with
  | nil => exact ⟨m, rfl⟩
  | cons e kv ih =>
    obtain ⟨key, value⟩ := e
    obtain ⟨he, hkv⟩ := forall_mem_cons.mp h
    obtain ⟨m', hm'⟩ := ih (m.insertConditional key value seq .always).1 (seq + 1) hkv
    exact ⟨m', by rw [putAll, he, hm']⟩

/-- A value that is there after the puts was put, or was there before. -/
lemma mem_of_putAll (h : putAll m seq kv = .ok m') {k : Key} {v : Value}
    (hv : valueAt m' k = some v) : (k, v) ∈ kv ∨ valueAt m k = some v := by
  induction kv generalizing m seq with
  | nil =>
    obtain rfl : m = m' := by simpa [putAll] using h
    exact .inr hv
  | cons e kv ih =>
    rcases ih (putAll_cons_inv h) with hmem | hm
    · exact .inl (mem_cons_of_mem _ hmem)
    · rw [valueAt_insert] at hm
      by_cases hk : k = e.1
      · rw [if_pos hk] at hm
        cases hm
        exact .inl (by rw [hk]; exact mem_cons_self)
      · rw [if_neg hk] at hm
        exact .inr hm

lemma valueAt_putAll_of_notMem (h : putAll m seq kv = .ok m') {k : Key}
    (hk : k ∉ kv.map Prod.fst) : valueAt m' k = valueAt m k := by
  induction kv generalizing m seq with
  | nil =>
    obtain rfl : m = m' := by simpa [putAll] using h
    rfl
  | cons e kv ih =>
    rw [map_cons, mem_cons, not_or] at hk
    rw [ih (putAll_cons_inv h) hk.2, valueAt_insert, if_neg hk.1]

/-- If no key is put twice, every record that was put is there. -/
lemma valueAt_putAll_of_mem (h : putAll m seq kv = .ok m') (hnodup : (kv.map Prod.fst).Nodup)
    {e : Key × Value} (he : e ∈ kv) : valueAt m' e.1 = some e.2 := by
  induction kv generalizing m seq with
  | nil => simp at he
  | cons e' kv ih =>
    obtain ⟨hnotMem, hnodup⟩ := nodup_cons.mp hnodup
    rcases mem_cons.mp he with rfl | he
    · rw [valueAt_putAll_of_notMem (putAll_cons_inv h) hnotMem, valueAt_insert, if_pos rfl]
    · exact ih (putAll_cons_inv h) hnodup he

/-- The puts of a listed family give the values of the family. -/
lemma valueAt_putAll_listKv {f : VersionedMap} (h : putAll ∅ seq (listKv f) = .ok m') (k : Key) :
    valueAt m' k = valueAt f k := by
  cases hf : valueAt f k with
  | none =>
    have hk : k ∉ (listKv f).map Prod.fst := by
      intro hmem
      obtain ⟨e, he, rfl⟩ := List.mem_map.mp hmem
      rw [mem_listKv.mp he] at hf
      cases hf
    rw [valueAt_putAll_of_notMem h hk]
    rfl
  | some v => exact valueAt_putAll_of_mem h (nodup_listKv_keys f) (mem_listKv.mpr hf)

end PutAll

/-! ## The families of an image -/

section InstallSpec

variable {isUtf8 : List Byte → Bool} {families families' : Families} {seq : ℕ}
  {decoded : List ImageFamily}

/-- A family of the image and the family it was installed as. -/
def InstalledAs (f : ImageFamily) (g : Key × VersionedMap) : Prop :=
  g.1 = f.1 ∧ ∃ seq, putAll ∅ seq f.2 = .ok g.2

/-- What an install that goes through has done: every family of the image once. -/
lemma installFamilies_inv (h : installFamilies isUtf8 families seq decoded = .ok families') :
    ∃ new, families' = families ++ new ∧ List.Forall₂ InstalledAs decoded new := by
  induction decoded generalizing families seq with
  | nil =>
    obtain rfl : families = families' := by simpa [installFamilies] using h
    exact ⟨[], (append_nil _).symm, .nil⟩
  | cons f decoded ih =>
    obtain ⟨name, kv⟩ := f
    rw [installFamilies] at h
    by_cases hutf : isUtf8 name = true
    · rw [if_pos hutf] at h
      cases hcreate : createTree families name with
      | error e => simp [hcreate] at h
      | ok u =>
        cases hput : putAll ∅ (seq + 2) kv with
        | error e => simp [hcreate, hput] at h
        | ok m =>
          simp only [hcreate, hput] at h
          obtain ⟨new, rfl, hnew⟩ := ih h
          exact ⟨(name, m) :: new, by simp, .cons ⟨rfl, _, hput⟩ hnew⟩
    · rw [if_neg hutf] at h
      cases h

lemma exists_installedAs {new : Families} (h : List.Forall₂ InstalledAs decoded new)
    {g : Key × VersionedMap} (hg : g ∈ new) : ∃ f ∈ decoded, InstalledAs f g := by
  induction h with
  | nil => simp at hg
  | @cons f g' _ _ hfg _ ih =>
    rcases mem_cons.mp hg with rfl | hg
    · exact ⟨f, mem_cons_self, hfg⟩
    · obtain ⟨f', hf', hfg'⟩ := ih hg
      exact ⟨f', mem_cons_of_mem _ hf', hfg'⟩

lemma createTree_ok {name : Key}
    (hname : name ≠ [] ∧ name.head? ≠ some 0 ∧ name.length + 1 ≤ maxFieldLen)
    (hnew : name ∉ families.map Prod.fst) : createTree families name = .ok () := by
  rw [createTree, if_neg hname.1, if_neg hname.2.1, if_neg hnew, if_neg (by omega)]

/-- An install of families that `create_tree` and `put` take goes through. -/
lemma installFamilies_of_valid
    (hutf : ∀ f ∈ decoded, isUtf8 f.1 = true)
    (hnames : ∀ f ∈ decoded, f.1 ≠ [] ∧ f.1.head? ≠ some 0 ∧ f.1.length + 1 ≤ maxFieldLen)
    (hshaped : ∀ f ∈ decoded, ∀ e ∈ f.2, validateInsertShape e.1 e.2 = .ok ())
    (hdistinct : (families.map Prod.fst ++ decoded.map Prod.fst).Nodup) (seq : ℕ) :
    ∃ families', installFamilies isUtf8 families seq decoded = .ok families' := by
  induction decoded generalizing families seq with
  | nil => exact ⟨families, rfl⟩
  | cons f decoded ih =>
    obtain ⟨name, kv⟩ := f
    obtain ⟨hutf₁, hutf⟩ := forall_mem_cons.mp hutf
    obtain ⟨hname, hnames⟩ := forall_mem_cons.mp hnames
    obtain ⟨hshaped₁, hshaped⟩ := forall_mem_cons.mp hshaped
    have hnew : name ∉ families.map Prod.fst := by
      intro hmem
      rw [nodup_append] at hdistinct
      exact hdistinct.2.2 name hmem name (by simp) rfl
    obtain ⟨m, hm⟩ := putAll_of_shaped ∅ (seq + 2) hshaped₁
    have hdistinct' : ((families ++ [(name, m)]).map Prod.fst ++ decoded.map Prod.fst).Nodup := by
      simpa using hdistinct
    obtain ⟨families', hok⟩ := ih hutf hnames hshaped hdistinct' (seq + 2 + kv.length)
    refine ⟨families', ?_⟩
    rw [installFamilies, if_pos hutf₁, createTree_ok hname hnew]
    simp only [hm, hok]

/-- Families that agree one by one are the same content. -/
lemma valuesOf_congr (h : List.Forall₂ (fun f g : Key × VersionedMap =>
    g.1 = f.1 ∧ ∀ k, valueAt g.2 k = valueAt f.2 k) families families') :
    SameContent families families' := by
  intro name
  induction h with
  | nil => rfl
  | @cons f g _ _ hfg _ ih =>
    obtain ⟨hname, hvalues⟩ := hfg
    unfold valuesOf at ih ⊢
    by_cases hf : f.1 = name
    · rw [find?_cons_of_pos (by simpa using hf),
        find?_cons_of_pos (by simpa [hname] using hf)]
      simp only [map_some, Option.some.injEq]
      funext k
      exact (hvalues k).symm
    · rw [find?_cons_of_neg (by simpa using hf),
        find?_cons_of_neg (by simpa [hname] using hf)]
      exact ih

lemma valuesOf_of_mem (hdistinct : (families.map Prod.fst).Nodup) {f : Key × VersionedMap}
    (hf : f ∈ families) : valuesOf families f.1 = some (valueAt f.2) := by
  have hfind : families.find? (fun g => g.1 = f.1) = some f := by
    induction families with
    | nil => simp at hf
    | cons g families ih =>
      obtain ⟨hnotMem, hdistinct⟩ := nodup_cons.mp hdistinct
      rcases mem_cons.mp hf with rfl | hf
      · exact find?_cons_of_pos (by simp)
      · have hne : g.1 ≠ f.1 := fun heq => hnotMem (heq ▸ List.mem_map_of_mem hf)
        rw [find?_cons_of_neg (by simpa using hne)]
        exact ih hdistinct hf
  rw [valuesOf, hfind]
  rfl

lemma exists_of_valuesOf {name : Key} {values : Key → Option Value}
    (h : valuesOf families name = some values) :
    ∃ g ∈ families, g.1 = name ∧ valueAt g.2 = values := by
  obtain ⟨g, hg, rfl⟩ := map_eq_some_iff.mp h
  exact ⟨g, mem_of_find?_eq_some hg, by simpa using find?_some hg, rfl⟩

end InstallSpec

/-- The lengths of a DB's image fit their fields: fewer than `2 ^ 32` families, and less than
`2 ^ 32` bytes of keys, values and lengths in each. -/
def Content.Fits {isUtf8 : List Byte → Bool} (db : Content isUtf8) : Prop :=
  db.families.length < 2 ^ 32 ∧
    ∀ f ∈ db.families, ((listKv f.2).map (fun e => 8 + e.1.length + e.2.length)).sum < 2 ^ 32

/-- The exported image of a DB, installed into a fresh DB, gives the content of the DB. -/
def Content.RoundTrips {isUtf8 : List Byte → Bool} (db : Content isUtf8) (seq : ℕ) : Prop :=
  ∃ installed, installCheckpoint isUtf8 seq (exportCheckpoint db.families) = .ok installed ∧
    SameContent db.families installed

section RoundTrip

variable {isUtf8 : List Byte → Bool} {db : Content isUtf8} {seq : ℕ}

lemma Content.shaped_listKv (db : Content isUtf8) {f : Key × VersionedMap}
    (hf : f ∈ db.families) {e : Key × Value} (he : e ∈ listKv f.2) :
    validateInsertShape e.1 e.2 = .ok () := by
  obtain ⟨r, hr, hvalue⟩ := map_eq_some_iff.mp (mem_listKv.mp he)
  rw [← hvalue]
  exact db.shaped f hf e.1 r hr

lemma length_le_of_shape {key : Key} {value : Value}
    (h : validateInsertShape key value = .ok ()) :
    key.length + 1 ≤ maxFieldLen ∧ value.length ≤ maxFieldLen := by
  rw [validateInsertShape] at h
  by_cases hkey : maxFieldLen < key.length + 1
  · simp [hkey] at h
  · by_cases hvalue : maxFieldLen < value.length
    · simp [hkey, hvalue] at h
    · exact ⟨by omega, by omega⟩

/-- What fits is exported, decoded and installed as it was. -/
lemma Content.Fits.roundTrips (hfits : db.Fits) (seq : ℕ) : db.RoundTrips seq := by
  have hfamilies : ∀ f ∈ db.families.map (fun f => (f.1, listKv f.2)), FitsFamily f := by
    intro f' hf'
    obtain ⟨f, hf, rfl⟩ := List.mem_map.mp hf'
    refine ⟨?_, ?_, fun e he => ?_⟩
    · have := (db.names f hf).2.2
      simp only [maxFieldLen] at this ⊢
      omega
    · rw [length_encodeBlock]
      exact (hfits.2 f hf).trans_eq (by norm_num)
    · obtain ⟨hkey, hvalue⟩ := length_le_of_shape (db.shaped_listKv hf he)
      simp only [maxFieldLen] at hkey hvalue
      exact ⟨by omega, by omega⟩
  have hdecode : decodeImage (exportCheckpoint db.families) =
      .ok (db.families.map (fun f => (f.1, listKv f.2))) := by
    refine decodeImage_encodeImage ?_ hfamilies
    rw [length_map]
    exact hfits.1.trans_eq (by norm_num)
  obtain ⟨installed, hok⟩ : ∃ installed, installFamilies isUtf8 [] seq
      (db.families.map (fun f => (f.1, listKv f.2))) = .ok installed := by
    refine installFamilies_of_valid ?_ ?_ ?_ ?_ seq
    · exact List.forall_mem_map.mpr db.utf8
    · exact List.forall_mem_map.mpr db.names
    · exact List.forall_mem_map.mpr fun f hf e he => db.shaped_listKv hf he
    · simpa [List.map_map, Function.comp_def] using db.distinct
  refine ⟨installed, by rw [installCheckpoint, hdecode]; exact hok, valuesOf_congr ?_⟩
  obtain ⟨new, rfl, hnew⟩ := installFamilies_inv hok
  refine (forall₂_map_left_iff.mp hnew).imp fun f g hfg => ?_
  obtain ⟨hname, seq', hput⟩ := hfg
  exact ⟨hname, valueAt_putAll_listKv hput⟩

/-- A list without repetitions has no larger sum than a list that contains it. -/
lemma sum_map_le_of_subset {α : Type*} {l l' : List α} (hnodup : l.Nodup) (hsub : l ⊆ l')
    (f : α → ℕ) : (l.map f).sum ≤ (l'.map f).sum := by
  obtain ⟨l'', hperm, hsublist⟩ := hnodup.subperm hsub
  rw [← (hperm.map f).sum_eq]
  exact (hsublist.map f).sum_le_sum fun _ _ => Nat.zero_le _

/-- The converse: an export that is read back fits its fields. -/
lemma Content.RoundTrips.fits (h : db.RoundTrips seq) : db.Fits := by
  obtain ⟨installed, hinstall, hsame⟩ := h
  rw [installCheckpoint] at hinstall
  cases hdecode : decodeImage (exportCheckpoint db.families) with
  | error e => simp [hdecode] at hinstall
  | ok decoded =>
    rw [hdecode] at hinstall
    obtain ⟨hcount, hfits, -⟩ := decodeImage_inv hdecode
    obtain ⟨new, rfl, hnew⟩ := installFamilies_inv hinstall
    -- every family was installed from a family of the image that has all of its records
    have hfrom : ∀ f ∈ db.families, ∃ f' ∈ decoded, f'.1 = f.1 ∧ listKv f.2 ⊆ f'.2 := by
      intro f hf
      have hvalues := valuesOf_of_mem db.distinct hf
      rw [hsame f.1] at hvalues
      obtain ⟨g, hg, hname, hvalues⟩ := exists_of_valuesOf hvalues
      obtain ⟨f', hf', hname', seq', hput⟩ := exists_installedAs hnew hg
      refine ⟨f', hf', hname'.symm.trans hname, fun e he => ?_⟩
      have hvalue : valueAt g.2 e.1 = some e.2 := by
        rw [hvalues]
        exact mem_listKv.mp he
      exact (mem_of_putAll hput hvalue).resolve_right nofun
    constructor
    · have hsub : db.families.map Prod.fst ⊆ decoded.map Prod.fst := by
        intro name hmem
        obtain ⟨f, hf, rfl⟩ := List.mem_map.mp hmem
        obtain ⟨f', hf', hname, -⟩ := hfrom f hf
        exact List.mem_map.mpr ⟨f', hf', hname⟩
      have hle := (db.distinct.subperm hsub).length_le
      rw [length_map, length_map] at hle
      exact (hle.trans_lt hcount).trans_eq (by norm_num)
    · intro f hf
      obtain ⟨f', hf', -, hsub⟩ := hfrom f hf
      have hblock := (hfits f' hf').2.1
      rw [length_encodeBlock] at hblock
      have hle := sum_map_le_of_subset (nodup_listKv_keys f.2).of_map hsub
        (fun e => 8 + e.1.length + e.2.length)
      exact (hle.trans_lt hblock).trans_eq (by norm_num)

end RoundTrip

/-- Two small families. -/
def twoFamilies : Content (fun _ => true) where
  families := [([97], (∅ : VersionedMap).insert [1] ⟨[2], 5⟩), ([98], ∅)]
  utf8 := by simp
  names := by simp [maxFieldLen]
  distinct := by decide
  shaped := by
    intro f hf k r hr
    rcases List.mem_cons.mp hf with rfl | hf
    · rw [VersionedMap.lookup_insert_eq] at hr
      by_cases hk : k = [1]
      · rw [if_pos hk] at hr
        cases hr
        rw [hk]
        rfl
      · simp [hk] at hr
    · obtain rfl := List.mem_singleton.mp hf
      simp at hr
  nulFree := by decide

/-- The largest value a record can have. -/
def largestValue : Value := List.replicate maxFieldLen 0

/-- Three bytes for a number below `255 ^ 3`, none of them zero. -/
def largeKey (i : ℕ) : Key :=
  [i % 255, i / 255 % 255, i / 255 / 255 % 255].map (fun digit => UInt8.ofNat (digit + 1))

lemma toNat_digit (n : ℕ) : (UInt8.ofNat (n % 255 + 1)).toNat = n % 255 + 1 :=
  UInt8.toNat_ofNat_of_lt' (show n % 255 + 1 < 256 by omega)

lemma nulFree_largeKey (i : ℕ) : (largeKey i).NulFree := by
  intro hmem
  obtain ⟨digit, hdigit, hzero⟩ := List.mem_map.mp hmem
  obtain ⟨n, rfl⟩ : ∃ n, digit = n % 255 := by
    rcases by simpa using hdigit with rfl | rfl | rfl <;> exact ⟨_, rfl⟩
  have := toNat_digit n
  rw [hzero] at this
  simp at this

/-- The keys of the large family are different. -/
lemma largeKey_inj {i j : ℕ} (hi : i < 255 ^ 3) (hj : j < 255 ^ 3) (h : largeKey i = largeKey j) :
    i = j := by
  simp only [largeKey, map_cons, map_nil, cons.injEq, and_true] at h
  have hdigits := And.intro (congrArg UInt8.toNat h.1)
    (And.intro (congrArg UInt8.toNat h.2.1) (congrArg UInt8.toNat h.2.2))
  simp only [toNat_digit] at hdigits
  omega

/-- `n` records with three-byte keys and the largest values. -/
def largeFamily : ℕ → VersionedMap
  | 0 => ∅
  | n + 1 => (largeFamily n).insert (largeKey n) ⟨largestValue, n + 1⟩

lemma lookup_largeFamily {r : Record} (h : (largeFamily n).lookup k = some r) :
    (∃ i, k = largeKey i) ∧ r.value = largestValue := by
  induction n with
  | zero => simp [largeFamily] at h
  | succ n ih =>
    rw [largeFamily, VersionedMap.lookup_insert_eq] at h
    by_cases hk : k = largeKey n
    · rw [if_pos hk] at h
      cases h
      exact ⟨⟨n, hk⟩, rfl⟩
    · rw [if_neg hk] at h
      exact ih h

lemma mem_largeFamily {i : ℕ} (hi : i < n) :
    (largeKey i, largestValue) ∈ listKv (largeFamily n) := by
  rw [mem_listKv]
  induction n with
  | zero => omega
  | succ n ih =>
    rw [largeFamily, valueAt, VersionedMap.lookup_insert_eq]
    by_cases hk : largeKey i = largeKey n
    · rw [if_pos hk]
      rfl
    · rw [if_neg hk]
      have hne : i ≠ n := fun heq => hk (by rw [heq])
      exact ih (by omega)

/-- Every key of the large family adds its largest value to the block. -/
lemma le_sum_largeFamily (hn : n ≤ 255 ^ 3) : n * (11 + maxFieldLen) ≤
      ((listKv (largeFamily n)).map (fun e => 8 + e.1.length + e.2.length)).sum := by
  have hnodup : ((List.range n).map (fun i => (largeKey i, largestValue))).Nodup := by
    refine nodup_range.map_on fun i hi j hj heq => ?_
    exact largeKey_inj ((mem_range.mp hi).trans_le hn) ((mem_range.mp hj).trans_le hn)
      (Prod.mk.inj heq).1
  have hsub : (List.range n).map (fun i => (largeKey i, largestValue)) ⊆
      listKv (largeFamily n) := by
    intro e he
    obtain ⟨i, hi, rfl⟩ := List.mem_map.mp he
    exact mem_largeFamily (mem_range.mp hi)
  refine le_trans (le_of_eq ?_) (sum_map_le_of_subset hnodup hsub _)
  have hconst : (fun i => 8 + (largeKey i).length + largestValue.length) =
      fun _ : ℕ => 11 + maxFieldLen := by
    funext i
    rw [largestValue, length_replicate]
    rfl
  rw [List.map_map, Function.comp_def, hconst, map_const', sum_replicate,
    length_range, smul_eq_mul]

lemma shaped_largeFamily {r : Record} (h : (largeFamily n).lookup k = some r) :
    validateInsertShape k r.value = .ok () := by
  obtain ⟨⟨i, rfl⟩, hvalue⟩ := lookup_largeFamily h
  rw [validateInsertShape, hvalue, largestValue, length_replicate, if_neg, if_neg]
  · omega
  · simp [largeKey, maxFieldLen]

/-- A DB with one such family. -/
def largeDb (n : ℕ) : Content (fun _ => true) where
  families := [([97], largeFamily n)]
  utf8 := by simp
  names := by simp [maxFieldLen]
  distinct := by simp
  shaped := by
    intro f hf k r hr
    obtain rfl := List.mem_singleton.mp hf
    exact shaped_largeFamily hr
  nulFree := by
    intro f hf
    obtain rfl := List.mem_singleton.mp hf
    refine ⟨show Key.NulFree [97] by decide, fun k hk => ?_⟩
    obtain ⟨r, hr⟩ := isSome_iff_exists.mp (Finmap.lookup_isSome.mpr (Finmap.mem_keys.mp hk))
    obtain ⟨⟨i, rfl⟩, -⟩ := lookup_largeFamily hr
    exact nulFree_largeKey i

lemma not_fits_largeDb (hn : n ≤ 255 ^ 3) (hlarge : 2 ^ 32 ≤ n * (11 + maxFieldLen)) :
    ¬ (largeDb n).Fits := by
  intro hfits
  have hlt := hfits.2 ([97], largeFamily n) (mem_singleton.mpr rfl)
  exact absurd (hlarge.trans (le_sum_largeFamily hn)) (Nat.not_le.mpr hlt)

end Db
end Holt
