import Mathlib.Tactic

/-!
# Tables of processes

A system with any number of processes keeps them in a list and names each by its index.
One process moves by `List.set`; these are the two facts about such a move that invariants
over all processes use: which process is found where, and how a count of processes or a sum
over them changes.  The last section has the same for a map with one changed entry.
-/

namespace Table

open Function List

variable {ι : Type*}

variable {l : List ι} {i : ℕ} {x q : ι}

/-- A process of the updated table is the updated one, or an old one at another index. -/
lemma getElem?_set_cases {k : ℕ} (h : (l.set i x)[k]? = some q) :
    (k = i ∧ q = x) ∨ (k ≠ i ∧ l[k]? = some q) := by
  rcases eq_or_ne i k with rfl | hk
  · have hi : i < l.length := by simpa using (List.getElem?_eq_some_iff.mp h).1
    rw [getElem?_set_self hi, Option.some.injEq] at h
    exact .inl ⟨rfl, h.symm⟩
  · rw [getElem?_set_ne hk] at h
    exact .inr ⟨hk.symm, h⟩

/-- A process of a table with one more process is an old one or the new one. -/
lemma getElem?_append_cases {k : ℕ} (h : (l ++ [x])[k]? = some q) :
    l[k]? = some q ∨ (k = l.length ∧ q = x) := by
  rcases Nat.lt_or_ge k l.length with hk | hk
  · rw [getElem?_append_left hk] at h
    exact .inl h
  · rw [getElem?_append_right hk] at h
    have hmem := mem_singleton.mp (mem_of_getElem? h)
    have hlen := (List.getElem?_eq_some_iff.mp h).1
    simp only [length_cons, length_nil] at hlen
    exact .inr ⟨by omega, hmem⟩

/-- What holds of every process, and of the one that moves, holds after the move. -/
lemma forall_mem_set {P : ι → Prop} (hl : ∀ q ∈ l, P q) (hx : P x) : ∀ q ∈ l.set i x, P q := by
  intro q hq
  rcases mem_or_eq_of_mem_set hq with h | rfl
  · exact hl q h
  · exact hx

lemma mem_concat (h : q ∈ l ++ [x]) : q ∈ l ∨ q = x :=
  (mem_append.mp h).imp_right mem_singleton.mp

lemma forall_mem_concat {P : ι → Prop} (hl : ∀ q ∈ l, P q) (hx : P x) : ∀ q ∈ l ++ [x], P q :=
  forall_mem_append.mpr ⟨hl, forall_mem_singleton.mpr hx⟩

variable {y : ι}

variable (hi : l[i]? = some x)
include hi

lemma mem_set_or_eq (hq : q ∈ l) : q ∈ l.set i y ∨ q = x := by
  obtain ⟨k, hk⟩ := mem_iff_getElem?.mp hq
  rcases eq_or_ne i k with rfl | hne
  · exact .inr (Option.some.inj (hk.symm.trans hi))
  · exact .inl (mem_of_getElem? ((getElem?_set_ne hne).trans hk))

/-- A move that keeps what is read of the process keeps what is read of the table. -/
lemma map_set_of_eq {κ : Type*} {f : ι → κ} (hf : f y = f x) :
    (l.set i y).map f = l.map f := by
  obtain ⟨hlt, rfl⟩ := List.getElem?_eq_some_iff.mp hi
  rw [map_set, hf, ← map_set, set_getElem_self]

variable {p : ι → Bool}

/-- How a count of processes changes when one of them moves. -/
lemma countP_set_add (y : ι) :
    (l.set i y).countP p + (p x).toNat = l.countP p + (p y).toNat := by
  obtain ⟨hlt, rfl⟩ := List.getElem?_eq_some_iff.mp hi
  have hpos : p l[i] = true → 0 < l.countP p := fun h =>
    countP_pos_iff.mpr ⟨l[i], getElem_mem hlt, h⟩
  rw [countP_set hlt]
  cases hx : p l[i] with
  | false => cases p y <;> simp
  | true =>
    have := hpos hx
    cases p y <;> simp <;> omega

/-- A move that does not change whether the process counts keeps the count. -/
lemma countP_set_of_eq (hp : p y = p x) :
    (l.set i y).countP p = l.countP p := by
  have := countP_set_add (p := p) hi y
  rw [hp] at this
  omega

/-- A move that ends a counted process lowers the count by one. -/
lemma countP_set_of_end (hx : p x = true) (hy : p y = false) :
    (l.set i y).countP p + 1 = l.countP p := by
  simpa [hx, hy] using countP_set_add (p := p) hi y

lemma countP_pos_of_getElem? (hx : p x = true) : 0 < l.countP p :=
  countP_pos_iff.mpr ⟨x, mem_of_getElem? hi, hx⟩

/-- How a sum over the processes changes when one of them moves. -/
lemma sum_map_set {f : ι → ℕ} (y : ι) :
    ((l.set i y).map f).sum + f x = (l.map f).sum + f y := by
  induction l generalizing i with
  | nil => simp at hi
  | cons z l ih =>
    cases i with
    | zero =>
      obtain rfl : z = x := by simpa using hi
      simp only [set_cons_zero, map_cons, sum_cons]
      omega
    | succ i =>
      have := ih (by simpa using hi)
      simp only [set_cons_succ, map_cons, sum_cons]
      omega

/-! ## Maps -/

variable {κ ν : Type*} [DecidableEq κ] {f : κ → Option ν} {j k : κ} {v w : ν}

omit hi

lemma update_cases (h : update f j (some v) k = some w) :
    k = j ∧ w = v ∨ k ≠ j ∧ f k = some w := by
  rcases eq_or_ne k j with rfl | hne
  · rw [update_self, Option.some.injEq] at h
    exact .inl ⟨rfl, h.symm⟩
  · rw [update_of_ne hne] at h
    exact .inr ⟨hne, h⟩

lemma update_ne_none (j : κ) (v : ν) (h : f k ≠ none) : update f j (some v) k ≠ none := by
  rcases eq_or_ne k j with rfl | hne
  · simp
  · rwa [update_of_ne hne]

end Table
