import Holt.Lib.CommonPrefix
import Holt.Tree.VersionedMap

/-!
# Search keys

Leaves store a key with a trailing `0` byte, so that a key and its extensions part inside the
tree.  A lookup carries the user's bytes and treats the terminator as virtual: each comparison
works out what the missing byte would have answered.  The lemmas say that the terminator might as
well have been there: every operation is the plain one on `SearchKey.full`.
-/

namespace Holt.Engine

open CommonPrefix

namespace SearchKey

/-- `SearchKey::write_to_slice`: the bytes a leaf stores. -/
def full (key : Key) : List Byte := key ++ [0]

/-- `SearchKey::len`. -/
def len (key : Key) : ℕ := key.length + 1

/-- `SearchKey::remaining_len`. -/
def remainingLen (key : Key) (depth : ℕ) : ℕ := len key - depth

/-- `SearchKey::byte_at`. -/
def byteAt (key : Key) (idx : ℕ) : Option Byte :=
  if idx < key.length then key[idx]?
  else if idx = key.length then some 0
  else none

/-- `SearchKey::eq_slice`. -/
def eqSlice (key : Key) (other : List Byte) : Bool :=
  if other.length ≠ key.length + 1 then false
  else agree key (other.take key.length) = key.length && other[key.length]? == some 0

/-- `SearchKey::common_prefix_with_slice`. -/
def commonPrefixWithSlice (key : Key) (depth : ℕ) (other : List Byte) : ℕ :=
  if depth ≥ len key ∨ other = [] then 0
  else if depth < key.length then
    let rawTail := key.drop depth
    let common := agree rawTail other
    if common < rawTail.length ∨ common = other.length then common
    else common + (if other[common]? = some 0 then 1 else 0)
  else if other[0]? = some 0 then 1 else 0

/-- `SearchKey::fingerprint`: FNV-1a over the stored bytes, folded to a byte that is never `0`. -/
def fingerprint (key : Key) : Byte :=
  let mixed := key.foldl (fun h b => (h ^^^ b.toUInt64) * 0x100000001b3) 0xcbf29ce484222325
  let h := mixed * 0x100000001b3
  let fp := (h ^^^ (h >>> 32)).toUInt8
  if fp = 0 then 0xFF else fp

variable {key : Key} {depth : ℕ} {other : List Byte}

@[simp] lemma length_full (key : Key) : (full key).length = len key := by
  simp [full, len]

/-- The words after `n` letters that both have. -/
private lemma isPrefix_append_singleton {xs ys : List Byte} {b : Byte}
    (hlen : xs.length < ys.length) (hlen' : ys.length ≤ xs.length + 1) :
    ys <+: xs ++ [b] ↔ xs <+: ys ∧ ys[xs.length]? = some b := by
  constructor
  · intro h
    have heq : ys = xs ++ [b] := h.eq_of_length (by simp; omega)
    subst heq
    simp
  · rintro ⟨⟨zs, rfl⟩, hb⟩
    obtain ⟨z, rfl⟩ : ∃ z, zs = [z] := List.length_eq_one_iff.mp (by simp at hlen hlen'; omega)
    simp at hb
    simp [hb]

@[simp] lemma eqSlice_iff : eqSlice key other = true ↔ other = full key := by
  unfold eqSlice
  by_cases hlen : other.length = key.length + 1
  · have hagree : agree key (other.take key.length) = key.length ↔ key <+: other := by
      rw [agree_eq_length_left, List.prefix_take_iff]
      simp
    rw [if_neg (by simpa using hlen), Bool.and_eq_true, decide_eq_true_iff, beq_iff_eq, hagree,
      ← isPrefix_append_singleton (by omega) (by omega)]
    constructor
    · exact fun h => h.eq_of_length (by simp [hlen])
    · rintro rfl
      exact List.prefix_refl _
  · rw [if_pos hlen]
    constructor
    · intro h
      cases h
    · rintro rfl
      exact absurd (length_full key) hlen

lemma byteAt_eq (key : Key) (idx : ℕ) : byteAt key idx = (full key)[idx]? := by
  unfold byteAt full
  grind

lemma commonPrefixWithSlice_eq (key : Key) (depth : ℕ) (other : List Byte) :
    commonPrefixWithSlice key depth other = agree ((full key).drop depth) other := by
  unfold commonPrefixWithSlice full len
  rcases lt_or_ge key.length depth with hlt | hle
  · simp [List.drop_eq_nil_of_le, hlt]
  · rw [List.drop_append_of_le_length hle, agree_concat]
    cases other <;> grind [agree]

variable {path : List Byte} (hkey : path <+: full key)
include hkey

lemma through (h : commonPrefixWithSlice key path.length other = other.length) :
    path ++ other <+: full key := by
  obtain ⟨tail, htail⟩ := hkey
  rw [commonPrefixWithSlice_eq, ← htail, List.drop_left, agree_eq_length_right] at h
  exact htail ▸ (List.prefix_append_right_inj path).mpr h

lemma within (h : commonPrefixWithSlice key path.length other = len key - path.length) :
    full key <+: path ++ other := by
  obtain ⟨tail, htail⟩ := hkey
  rw [commonPrefixWithSlice_eq, ← length_full, ← htail, List.drop_left, List.length_append,
    Nat.add_sub_cancel_left, agree_eq_length_left] at h
  exact htail ▸ (List.prefix_append_right_inj path).mpr h

lemma through_byte {byte : Byte} (h : (full key)[path.length]? = some byte) :
    path ++ [byte] <+: full key := by
  have htake := List.take_prefix (path.length + 1) (full key)
  rwa [List.take_add_one, h, ← List.prefix_iff_eq_take.mp hkey] at htake

/-- A key and a byte string that part have different bytes there. -/
lemma parts (hother : commonPrefixWithSlice key path.length other ≠ other.length)
    (hrest : commonPrefixWithSlice key path.length other ≠ len key - path.length) :
    ∃ s a b rest rest', a ≠ b ∧ full key = path ++ s ++ a :: rest ∧ other = s ++ b :: rest' ∧
      commonPrefixWithSlice key path.length other = s.length := by
  obtain ⟨tail, htail⟩ := hkey
  have hlen : len key - path.length = tail.length := by
    rw [← length_full, ← htail, List.length_append, Nat.add_sub_cancel_left]
  rw [commonPrefixWithSlice_eq, ← htail, List.drop_left] at hother hrest ⊢
  obtain ⟨s, a, b, rest, rest', hab, rfl, hys, hs⟩ := exists_parting (hlen ▸ hrest) hother
  exact ⟨s, a, b, rest, rest', hab, by simp, hys, hs⟩

end SearchKey

end Holt.Engine
