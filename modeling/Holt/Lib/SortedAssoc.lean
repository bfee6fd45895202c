import Mathlib.Data.List.Sort
import Mathlib.Order.Basic
import Mathlib.Tactic.Common

/-!
# Association lists in key order

Lists of keys with values in which the keys strictly increase: looking a key up, giving it a
value, and building such a list from two entries.
-/

namespace SortedAssoc

open List

variable {κ γ δ : Type} [LinearOrder κ]

/-- The value of a key. -/
def find (key : κ) : List (κ × γ) → Option γ
  | [] => none
  | (k, x) :: rest => if k = key then some x else find key rest

/-- The list with another value under a key, in place of the one there was. -/
def set (key : κ) (x : γ) : List (κ × γ) → List (κ × γ)
  | [] => [(key, x)]
  | c :: rest =>
    if key < c.1 then (key, x) :: c :: rest
    else if key = c.1 then (key, x) :: rest
    else c :: set key x rest

/-- The entries in the order of their keys. -/
def sortByKey (entries : List (κ × γ)) : List (κ × γ) :=
  entries.insertionSort fun c d => c.1 ≤ d.1

/-- The keys strictly increase. -/
def Increasing (entries : List (κ × γ)) : Prop := (entries.map Prod.fst).Pairwise (· < ·)

variable {key : κ} {x y : γ} {entries rest : List (κ × γ)} {c : κ × γ}

lemma increasing_cons :
    Increasing (c :: rest) ↔ (∀ d ∈ rest, c.1 < d.1) ∧ Increasing rest := by
  simp [Increasing]

lemma mem_of_find (h : find key entries = some x) : (key, x) ∈ entries := by
  induction entries with
  | nil => cases h
  | cons c rest ih =>
    simp only [find] at h
    by_cases hkey : c.1 = key
    · rw [if_pos hkey, Option.some_inj] at h
      rw [← hkey, ← h]
      exact mem_cons_self
    · rw [if_neg hkey] at h
      exact mem_cons_of_mem _ (ih h)

lemma find_eq_none : find key entries = none ↔ ∀ c ∈ entries, c.1 ≠ key := by
  induction entries with
  | nil => simp [find]
  | cons c rest ih =>
    simp only [find, forall_mem_cons]
    by_cases hkey : c.1 = key <;> simp [hkey, ih]

lemma find_of_mem (hinc : Increasing entries) (h : (key, x) ∈ entries) :
    find key entries = some x := by
  induction entries with
  | nil => cases h
  | cons c rest ih =>
    rw [increasing_cons] at hinc
    simp only [find]
    rcases mem_cons.mp h with rfl | h
    · rw [if_pos rfl]
    · rw [if_neg (hinc.1 _ h).ne, ih hinc.2 h]

lemma find_map (g : γ → δ) :
    find key (entries.map fun c => (c.1, g c.2)) = (find key entries).map g := by
  induction entries with
  | nil => rfl
  | cons c rest ih =>
    simp only [map_cons, find, ih]
    split_ifs <;> rfl

lemma set_map (g : γ → δ) :
    set key (g x) (entries.map fun c => (c.1, g c.2)) =
      (set key x entries).map fun c => (c.1, g c.2) := by
  induction entries with
  | nil => rfl
  | cons c rest ih =>
    simp only [map_cons, set, ih]
    split_ifs <;> rfl

lemma set_of_find (hinc : Increasing entries) (h : find key entries = some y) :
    ∃ l r, entries = l ++ (key, y) :: r ∧ (∀ c ∈ l ++ r, c.1 ≠ key) ∧
      ∀ x, set key x entries = l ++ (key, x) :: r := by
  induction entries with
  | nil => cases h
  | cons c rest ih =>
    rw [increasing_cons] at hinc
    simp only [find] at h
    by_cases hkey : c.1 = key
    · rw [if_pos hkey, Option.some_inj] at h
      obtain ⟨k, z⟩ := c
      subst hkey h
      exact ⟨[], rest, rfl, fun c hc => (hinc.1 c hc).ne', fun x => by simp [set]⟩
    · rw [if_neg hkey] at h
      obtain ⟨l, r, hrest, hne, hset⟩ := ih hinc.2 h
      refine ⟨c :: l, r, by rw [hrest]; rfl, forall_mem_cons.mpr ⟨hkey, hne⟩, fun x => ?_⟩
      have hlt : c.1 < key := hinc.1 _ (mem_of_find h)
      rw [set, if_neg hlt.not_gt, if_neg hlt.ne', hset x]
      rfl

lemma set_of_not_find (h : find key entries = none) :
    ∃ l r, entries = l ++ r ∧ ∀ x, set key x entries = l ++ (key, x) :: r := by
  induction entries with
  | nil => exact ⟨[], [], rfl, fun _ => rfl⟩
  | cons c rest ih =>
    simp only [find_eq_none, forall_mem_cons] at h ih
    by_cases hlt : key < c.1
    · exact ⟨[], c :: rest, rfl, fun x => by simp [set, hlt]⟩
    · obtain ⟨l, r, hrest, hset⟩ := ih h.2
      refine ⟨c :: l, r, by rw [hrest]; rfl, fun x => ?_⟩
      rw [set, if_neg hlt, if_neg (Ne.symm h.1), hset x]
      rfl

lemma mem_set (hinc : Increasing entries) : c ∈ set key x entries ↔
    c = (key, x) ∨ c ∈ entries ∧ c.1 ≠ key := by
  induction entries with
  | nil => simp [set]
  | cons d rest ih => grind [set, increasing_cons]

lemma increasing_set (key : κ) (x : γ) (hinc : Increasing entries) :
    Increasing (set key x entries) := by
  induction entries with
  | nil => simp [set, Increasing]
  | cons d rest ih => grind [set, increasing_cons, mem_set]

lemma mem_flatMap_set (hinc : Increasing entries) {g : κ × γ → List δ} {z : δ} :
    z ∈ (set key x entries).flatMap g ↔
      z ∈ g (key, x) ∨ z ∈ (entries.filter (·.1 ≠ key)).flatMap g := by
  simp only [mem_flatMap, mem_set hinc, mem_filter, decide_eq_true_iff, or_and_right, exists_or,
    exists_eq_left]

lemma mem_flatMap_find (hinc : Increasing entries) (g : κ × γ → List δ) (hx : g (key, x) = [])
    (z : δ) : z ∈ entries.flatMap g ↔
      z ∈ g (key, (find key entries).getD x) ∨ z ∈ (entries.filter (·.1 ≠ key)).flatMap g := by
  cases h : find key entries with
  | none =>
    have hall : entries.filter (·.1 ≠ key) = entries :=
      filter_eq_self.mpr (by simpa using find_eq_none.mp h)
    rw [hall]
    simp [hx]
  | some y =>
    obtain ⟨l, r, heq, -, hset⟩ := set_of_find hinc h
    rw [Option.getD_some, ← mem_flatMap_set hinc, hset y, ← heq]

lemma Increasing.nodup (hinc : Increasing entries) : (entries.map Prod.fst).Nodup :=
  List.Pairwise.imp (fun h => h.ne) hinc

lemma sortByKey_pair (c d : κ × γ) :
    sortByKey [c, d] = if c.1 ≤ d.1 then [c, d] else [d, c] := by
  simp [sortByKey, List.orderedInsert]

lemma perm_pair (c d : κ × γ) : (sortByKey [c, d]).Perm [c, d] := perm_insertionSort _ _

lemma map_sortByKey_pair (g : γ → δ) (c d : κ × γ) :
    (sortByKey [c, d]).map (fun e => (e.1, g e.2)) = sortByKey [(c.1, g c.2), (d.1, g d.2)] := by
  rw [sortByKey_pair, sortByKey_pair]
  split_ifs <;> rfl

end SortedAssoc
