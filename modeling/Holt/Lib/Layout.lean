import Mathlib.Tactic

/-!
# Blocks laid end to end

A log is a sequence of blocks written one after another.  `offset blocks i` is the address
at which block `i` starts, so block `i` occupies `[offset blocks i, offset blocks (i + 1))`
and consecutive blocks tile the address space without gaps.  `slice_flatten_take` reads a
block back out of the concatenation of any prefix that contains it.
-/

namespace Layout

open List

variable {β : Type*}

/-- Start address of block `i` when the blocks are laid end to end from address `0`. -/
def offset (blocks : List (List β)) (i : ℕ) : ℕ :=
  ((blocks.take i).map List.length).sum

variable (blocks : List (List β))

@[simp] lemma offset_zero : offset blocks 0 = 0 := by
  simp [offset]

variable {i : ℕ}

lemma offset_succ (hi : i < blocks.length) :
    offset blocks (i + 1) = offset blocks i + (blocks[i]).length := by
  rw [offset, offset, take_add_one, getElem?_eq_getElem hi, map_append,
    sum_append]
  rfl

/-- Beyond the last block the offset stays at the total length. -/
lemma offset_of_length_le (hi : blocks.length ≤ i) :
    offset blocks i = offset blocks blocks.length := by
  simp [offset, take_of_length_le hi]

lemma offset_le_succ (i : ℕ) :
    offset blocks i ≤ offset blocks (i + 1) := by
  by_cases hi : i < blocks.length
  · rw [offset_succ blocks hi]
    omega
  · rw [offset_of_length_le blocks (i := i) (by omega),
      offset_of_length_le blocks (i := i + 1) (by omega)]

lemma offset_mono : Monotone (offset blocks) :=
  monotone_nat_of_le_succ (offset_le_succ blocks)

lemma offset_append (blocks more : List (List β)) (hi : i ≤ blocks.length) :
    offset (blocks ++ more) i = offset blocks i := by
  simp [offset, take_append_of_le_length hi]

/-- With no empty block, later blocks start strictly later. -/
lemma offset_lt_of_lt (hne : ∀ b ∈ blocks, 0 < b.length) {j : ℕ} (hij : i < j)
    (hj : j ≤ blocks.length) : offset blocks i < offset blocks j := by
  have hi : i < blocks.length := by omega
  have hpos := hne _ (getElem_mem hi)
  have hstep := offset_succ blocks hi
  have hle := offset_mono blocks (show i + 1 ≤ j by omega)
  omega

lemma length_flatten_take (n : ℕ) :
    ((blocks.take n).flatten).length = offset blocks n := by
  simp [offset, length_flatten]

variable {n : ℕ}

/-- A block is read back from the concatenation of any prefix that contains it. -/
theorem slice_flatten_take (hin : i < n) (hi : i < blocks.length) :
    (((blocks.take n).flatten).drop (offset blocks i)).take (blocks[i]).length = blocks[i] := by
  have hsplit : blocks.take n = blocks.take i ++ blocks[i] :: (blocks.take n).drop (i + 1) := by
    have hlen : i < (blocks.take n).length := by simp; omega
    conv_lhs => rw [← take_append_drop i (blocks.take n)]
    rw [drop_eq_getElem_cons hlen]
    simp [take_take, min_eq_left hin.le]
  rw [hsplit, flatten_append, flatten_cons, ← length_flatten_take,
    drop_left, take_left]

/-- Every address below a block boundary lies in one block before it. -/
lemma exists_block (hn : n ≤ blocks.length) {a : ℕ} (ha : a < offset blocks n) :
    ∃ i, ∃ hi : i < blocks.length, i < n ∧ ∃ j, j < (blocks[i]).length ∧
      a = offset blocks i + j := by
  induction n with
  | zero => simp at ha
  | succ n ih =>
    have hn' : n < blocks.length := hn
    by_cases hlt : a < offset blocks n
    · obtain ⟨i, hi, hin, j, hj, rfl⟩ := ih hn'.le hlt
      exact ⟨i, hi, by omega, j, hj, rfl⟩
    · rw [offset_succ blocks hn'] at ha
      exact ⟨n, hn', by omega, a - offset blocks n, by omega, by omega⟩

/-- The byte at a block's address in the concatenation of a prefix that contains it. -/
lemma getElem?_flatten_take (hin : i < n) (hi : i < blocks.length) {j : ℕ}
    (hj : j < (blocks[i]).length) :
    ((blocks.take n).flatten)[offset blocks i + j]? = some (blocks[i])[j] := by
  have hslice := slice_flatten_take blocks hin hi
  have hget : ((((blocks.take n).flatten).drop (offset blocks i)).take (blocks[i]).length)[j]?
      = some (blocks[i])[j] := by
    rw [hslice, getElem?_eq_getElem hj]
  rwa [getElem?_take, if_pos hj, getElem?_drop] at hget

/-- A shorter prefix is read off the concatenation of a longer one. -/
lemma take_offset_flatten {m : ℕ} (hmn : m ≤ n) :
    ((blocks.take n).flatten).take (offset blocks m) = (blocks.take m).flatten := by
  conv_lhs => rw [← take_append_drop m (blocks.take n)]
  rw [flatten_append, take_take, min_eq_left hmn, ← length_flatten_take,
    take_left]

/-- The number of blocks that end at or before a position. -/
def wholeBlocks (blocks : List (List β)) (n : ℕ) : ℕ :=
  Nat.findGreatest (fun k => offset blocks k ≤ n) blocks.length

lemma wholeBlocks_le (n : ℕ) : wholeBlocks blocks n ≤ blocks.length :=
  Nat.findGreatest_le _

lemma offset_wholeBlocks_le (n : ℕ) :
    offset blocks (wholeBlocks blocks n) ≤ n := by
  have hzero : offset blocks 0 ≤ n := by
    rw [offset_zero]
    exact Nat.zero_le n
  exact Nat.findGreatest_spec (P := fun k => offset blocks k ≤ n) (Nat.zero_le _) hzero

lemma lt_offset_wholeBlocks {blocks : List (List β)} (h : wholeBlocks blocks n < blocks.length) :
    n < offset blocks (wholeBlocks blocks n + 1) := by
  by_contra hge
  exact Nat.findGreatest_is_greatest (P := fun k => offset blocks k ≤ n)
    (Nat.lt_succ_self _) h (not_lt.mp hge)

/-- A cut inside block `k` leaves the blocks before it and a part of it. -/
lemma take_flatten_cut {k : ℕ} (hk : k < blocks.length) (hle : offset blocks k ≤ n)
    (hlt : n ≤ offset blocks (k + 1)) :
    blocks.flatten.take n = (blocks.take k).flatten ++ (blocks[k]).take (n - offset blocks k) := by
  have hsplit : blocks.flatten =
      (blocks.take k).flatten ++ (blocks[k] ++ (blocks.drop (k + 1)).flatten) := by
    conv_lhs => rw [← take_append_drop k blocks, drop_eq_getElem_cons hk]
    rw [flatten_append, flatten_cons]
  have hsize := offset_succ blocks hk
  rw [hsplit, take_append, length_flatten_take, take_of_length_le
    (by rw [length_flatten_take]; exact hle), take_append_of_le_length (by omega)]

/-- A cut leaves whole blocks and a proper part of the next one. -/
lemma exists_take_flatten (n : ℕ) :
    ∃ tail, blocks.flatten.take n = (blocks.take (wholeBlocks blocks n)).flatten ++ tail ∧
      (tail = [] ∨ ∃ b ∈ blocks, tail <+: b ∧ tail ≠ b) ∧
      (n ≤ blocks.flatten.length → (tail = [] ↔ n = offset blocks (wholeBlocks blocks n))) := by
  have hle := offset_wholeBlocks_le blocks n
  by_cases hk : wholeBlocks blocks n < blocks.length
  · have hlt := lt_offset_wholeBlocks hk
    have hsize := offset_succ blocks hk
    have hlen : ((blocks[wholeBlocks blocks n]).take
        (n - offset blocks (wholeBlocks blocks n))).length =
          n - offset blocks (wholeBlocks blocks n) := by
      rw [length_take]
      omega
    refine ⟨_, take_flatten_cut blocks hk hle hlt.le, .inr ⟨_, getElem_mem hk,
      take_prefix _ _, fun hall => ?_⟩, fun _ => ?_⟩
    · rw [hall] at hlen
      omega
    · rw [← length_eq_zero_iff, hlen]
      omega
  · have hall : wholeBlocks blocks n = blocks.length := by
      have := wholeBlocks_le blocks n
      omega
    have htotal : offset blocks blocks.length = blocks.flatten.length := by
      rw [← length_flatten_take, take_length]
    rw [hall, htotal] at hle ⊢
    refine ⟨[], ?_, .inl rfl, fun hn => ?_⟩
    · rw [take_of_length_le hle, take_length, append_nil]
    · exact ⟨fun _ => le_antisymm hn hle, fun _ => rfl⟩

end Layout
