import Mathlib.Tactic

/-!
# Circular memory

`cap` physical cells hold a window of an unbounded address space: logical address `a` lives
in cell `a % cap`.  A range is written with at most one wrap (`blit` up to the last cell,
then `blit` from cell `0`) and read back the same way.  Two addresses of one window of
length `cap` never share a cell, so writing one range of the window leaves the others alone.
-/

namespace Circular

open List

variable {β : Type*}

/-- Overwrite the cells from `off` on with `xs`. -/
def blit (mem : ℕ → β) (off : ℕ) (xs : List β) : ℕ → β := fun p =>
  if off ≤ p then (xs[p - off]?).getD (mem p) else mem p

/-- Write `xs` at logical address `a`, split where the range wraps. -/
def write (cap : ℕ) (mem : ℕ → β) (a : ℕ) (xs : List β) : ℕ → β :=
  let off := a % cap
  let first := min xs.length (cap - off)
  let mem' := blit mem off (xs.take first)
  if first < xs.length then blit mem' 0 (xs.drop first) else mem'

/-- The `n` cells from `off` on. -/
def cells (mem : ℕ → β) (off n : ℕ) : List β :=
  (List.range n).map (fun i => mem (off + i))

/-- Read `n` bytes from logical address `a`, split where the range wraps. -/
def read (cap : ℕ) (mem : ℕ → β) (a n : ℕ) : List β :=
  let off := a % cap
  let first := min n (cap - off)
  cells mem off first ++ (if first < n then cells mem 0 (n - first) else [])

variable {j : ℕ}

lemma blit_of_mem (mem : ℕ → β) (off : ℕ) (xs : List β) (hj : j < xs.length) :
    blit mem off xs (off + j) = xs[j] := by
  simp [blit, getElem?_eq_getElem hj]

lemma blit_of_not_mem (mem : ℕ → β) (off : ℕ) (xs : List β) {p : ℕ}
    (hp : p < off ∨ off + xs.length ≤ p) : blit mem off xs p = mem p := by
  unfold blit
  split_ifs with h
  · rw [getElem?_eq_none (by omega)]
    rfl
  · rfl

variable {cap : ℕ}

/-- The cell of the `j`-th byte of a range at `a`, before and after the wrap. -/
lemma cell_eq (hcap : 0 < cap) (a : ℕ) (hj : j < cap) :
    (a + j) % cap = if j < cap - a % cap then a % cap + j else j - (cap - a % cap) := by
  have hoff : a % cap < cap := Nat.mod_lt _ hcap
  rw [Nat.add_mod, Nat.mod_eq_of_lt hj]
  split_ifs with h
  · exact Nat.mod_eq_of_lt (by omega)
  · rw [Nat.mod_eq_sub_mod (by omega), Nat.mod_eq_of_lt (by omega)]
    omega

/-- Addresses less than `cap` apart that share a cell are equal. -/
lemma eq_of_cell_eq {a b : ℕ} (hab : a % cap = b % cap) (hle : a ≤ b) (hlt : b < a + cap) :
    a = b := by
  have hd : cap ∣ b - a := (Nat.modEq_iff_dvd' hle).mp hab
  have hz : b - a = 0 := Nat.eq_zero_of_dvd_of_lt hd (by omega)
  omega

/-- A written range reads back byte by byte. -/
theorem write_hit (hcap : 0 < cap) (mem : ℕ → β) (a : ℕ) (xs : List β) (hlen : xs.length ≤ cap)
    (hj : j < xs.length) : write cap mem a xs ((a + j) % cap) = xs[j] := by
  have hoff : a % cap < cap := Nat.mod_lt _ hcap
  rw [cell_eq hcap a (by omega : j < cap)]
  unfold write
  by_cases hjf : j < cap - a % cap
  · -- before the wrap the second copy only touches cells below the range's first cell
    have hfirst : j < min xs.length (cap - a % cap) := by omega
    have hhit : blit mem (a % cap) (xs.take (min xs.length (cap - a % cap))) (a % cap + j)
        = xs[j] := by
      rw [blit_of_mem mem (a % cap) _ (j := j) (by rw [length_take]; omega),
        getElem_take]
    rw [if_pos hjf]
    split_ifs with hwrap
    · rw [blit_of_not_mem _ _ _ (by right; rw [length_drop]; omega), hhit]
    · exact hhit
  · have hwrap : min xs.length (cap - a % cap) < xs.length := by omega
    rw [if_neg hjf, if_pos hwrap]
    have hlen' : j - (cap - a % cap) < (xs.drop (min xs.length (cap - a % cap))).length := by
      rw [length_drop]
      omega
    have h0 := blit_of_mem (blit mem (a % cap) (xs.take (min xs.length (cap - a % cap)))) 0
      (xs.drop (min xs.length (cap - a % cap))) hlen'
    rw [Nat.zero_add] at h0
    rw [h0, getElem_drop]
    congr 1
    omega

/-- A write leaves every cell outside its range alone. -/
theorem write_miss (hcap : 0 < cap) (mem : ℕ → β) (a : ℕ) (xs : List β) (hlen : xs.length ≤ cap)
    {p : ℕ} (hp : ∀ j < xs.length, p ≠ (a + j) % cap) : write cap mem a xs p = mem p := by
  have hoff : a % cap < cap := Nat.mod_lt _ hcap
  have hcell : ∀ j < xs.length,
      p ≠ if j < cap - a % cap then a % cap + j else j - (cap - a % cap) := by
    intro j hj
    rw [← cell_eq hcap a (by omega)]
    exact hp j hj
  have hfst : blit mem (a % cap) (xs.take (min xs.length (cap - a % cap))) p = mem p := by
    apply blit_of_not_mem
    rw [length_take]
    by_contra hin
    have := hcell (p - a % cap) (by omega)
    rw [if_pos (by omega)] at this
    omega
  unfold write
  split_ifs with hwrap
  · rw [blit_of_not_mem, hfst]
    right
    rw [length_drop]
    by_contra hin
    have := hcell (p + (cap - a % cap)) (by omega)
    rw [if_neg (by omega)] at this
    omega
  · exact hfst

/-- A range of at most `cap` bytes is read back in address order. -/
theorem read_eq (hcap : 0 < cap) (mem : ℕ → β) (a : ℕ) {n : ℕ} (hn : n ≤ cap) :
    read cap mem a n = (List.range n).map (fun i => mem ((a + i) % cap)) := by
  have hoff : a % cap < cap := Nat.mod_lt _ hcap
  have hfst : cells mem (a % cap) (min n (cap - a % cap)) =
      (List.range (min n (cap - a % cap))).map (fun i => mem ((a + i) % cap)) := by
    refine map_congr_left (fun i hi => ?_)
    rw [mem_range] at hi
    rw [cell_eq hcap a (by omega), if_pos (by omega)]
  have hsnd : cells mem 0 (n - min n (cap - a % cap)) =
      (List.range (n - min n (cap - a % cap))).map
        (fun i => mem ((a + (min n (cap - a % cap) + i)) % cap)) := by
    refine map_congr_left (fun i hi => ?_)
    rw [mem_range] at hi
    rw [cell_eq hcap a (by omega), if_neg (by omega)]
    congr 1
    omega
  have hrange : List.range n = List.range (min n (cap - a % cap)) ++
      (List.range (n - min n (cap - a % cap))).map (min n (cap - a % cap) + ·) := by
    rw [← range_add]
    congr 1
    omega
  rw [hrange, map_append, List.map_map, ← hfst]
  simp only [read]
  congr 1
  split_ifs with hwrap
  · exact hsnd
  · rw [show n - min n (cap - a % cap) = 0 by omega]
    rfl

end Circular
