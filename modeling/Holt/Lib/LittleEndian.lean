import Mathlib.Tactic

/-!
# Little-endian numbers

A number is stored in a fixed number of bytes, the least significant first.  `bytes w n`
writes it and `value` reads it back; what does not fit into `w` bytes is lost.  Arrays of
fields of one width are read with `take_drop_flatMap`.
-/

namespace LittleEndian

open List

/-- The `w` bytes of a number. -/
def bytes : ℕ → ℕ → List UInt8
  | 0, _ => []
  | w + 1, n => UInt8.ofNat n :: bytes w (n / 256)

/-- The number that bytes stand for. -/
def value : List UInt8 → ℕ
  | [] => 0
  | b :: bs => b.toNat + 256 * value bs

@[simp] lemma length_bytes (w n : ℕ) : (bytes w n).length = w := by
  induction w generalizing n with
  | zero => rfl
  | succ w ih => rw [bytes, length_cons, ih]

lemma value_bytes (w n : ℕ) : value (bytes w n) = n % 256 ^ w := by
  induction w generalizing n with
  | zero => rw [pow_zero, Nat.mod_one]; rfl
  | succ w ih =>
    have hb : (UInt8.ofNat n).toNat = n % 256 := UInt8.toNat_ofNat'
    rw [bytes, value, ih, hb, pow_succ', Nat.mod_mul]

variable {w : ℕ}

/-- A number that fits is read back. -/
theorem value_bytes_of_lt {n : ℕ} (h : n < 256 ^ w) : value (bytes w n) = n := by
  rw [value_bytes, Nat.mod_eq_of_lt h]

lemma value_lt (bs : List UInt8) : value bs < 256 ^ bs.length := by
  induction bs with
  | nil => simp [value]
  | cons b bs ih =>
    have hb := b.toNat_lt
    rw [value, length_cons, pow_succ']
    omega

/-- Writing a number that was read gives the bytes it was read from. -/
theorem bytes_value (bs : List UInt8) : bytes bs.length (value bs) = bs := by
  induction bs with
  | nil => rfl
  | cons b bs ih =>
    have hb := b.toNat_lt
    have hlow : UInt8.ofNat (value (b :: bs)) = b := by
      rw [← UInt8.toNat_inj, UInt8.toNat_ofNat']
      simp only [value]
      omega
    have hhigh : value (b :: bs) / 256 = value bs := by
      simp only [value]
      omega
    rw [length_cons, bytes, hlow, hhigh, ih]

/-- An array of fields of one width is read field by field. -/
lemma take_drop_flatMap {α : Type*} {f : α → List UInt8} (hw : ∀ a, (f a).length = w) {l : List α}
    {i : ℕ} (hi : i < l.length) : ((l.flatMap f).drop (w * i)).take w = f (l.get ⟨i, hi⟩) := by
  induction l generalizing i with
  | nil => simp at hi
  | cons a l ih =>
    cases i with
    | zero => simpa using take_left' (hw a)
    | succ i =>
      have hskip : (f a ++ l.flatMap f).drop (w * (i + 1)) = (l.flatMap f).drop (w * i) := by
        rw [drop_append, drop_of_length_le (by rw [hw, Nat.mul_succ]; omega),
          nil_append, hw, Nat.mul_succ, Nat.add_sub_cancel]
      rw [flatMap_cons, hskip]
      exact ih (by simpa using hi)

lemma length_flatMap_of_width {α : Type*} {f : α → List UInt8} (hw : ∀ a, (f a).length = w)
    (l : List α) : (l.flatMap f).length = w * l.length := by
  induction l with
  | nil => rfl
  | cons a l ih =>
    rw [flatMap_cons, length_append, hw, ih, length_cons, Nat.mul_succ, Nat.add_comm]

end LittleEndian
