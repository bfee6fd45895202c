import Mathlib.Data.List.Sort
import Mathlib.Tactic

/-!
# Reusable slots

The blobs of a store lie in numbered slots of one file.  `ReusableSlots` holds the numbers
below the high water `next_slot` that may be given out again: slots that were freed one by
one, and ranges that were found free when the manifest was opened.

Every operation is described by what it does to the list of all reusable slots: `pop` takes
one out, `append_slots` puts some in, `reconstruct` finds exactly the slots that are not in
use, and `trim_trailing` lowers the high water over slots that are reusable.
-/

namespace Holt
namespace Store

open List
open scoped List

/-- The error of `ReusableSlots::reconstruct`. -/
inductive SlotError
  | slotPastNextSlot
  | duplicateSlot
deriving DecidableEq

/-- The slots from `next` to `last`; `last` is the field `end` of the source. -/
structure FreeSlotRange where
  next : ℕ
  last : ℕ
  le : next ≤ last

def FreeSlotRange.slots (r : FreeSlotRange) : List ℕ := List.range' r.next (r.last + 1 - r.next)

lemma FreeSlotRange.mem_slots {r : FreeSlotRange} {slot : ℕ} :
    slot ∈ r.slots ↔ r.next ≤ slot ∧ slot ≤ r.last := by
  have := r.le
  rw [slots, mem_range'_1]
  omega

/-- Both vectors are used as stacks, with the top at the end. -/
structure ReusableSlots where
  singles : List ℕ
  ranges : List FreeSlotRange

namespace ReusableSlots

/-- All reusable slots. -/
def slots (r : ReusableSlots) : List ℕ := r.singles ++ r.ranges.flatMap FreeSlotRange.slots

def pop (r : ReusableSlots) : Option (ℕ × ReusableSlots) :=
  match r.singles.getLast? with
  | some slot => some (slot, { r with singles := r.singles.dropLast })
  | none =>
    match r.ranges.getLast? with
    | none => none
    | some range =>
      if h : range.next = range.last then
        some (range.next, { r with ranges := r.ranges.dropLast })
      else
        some (range.next, { r with
          ranges := r.ranges.dropLast ++
            [⟨range.next + 1, range.last, lt_of_le_of_ne range.le h⟩] })

def appendSlots (r : ReusableSlots) (slots : List ℕ) : ReusableSlots :=
  { r with singles := r.singles ++ slots }

/-- `Vec::swap_remove`. -/
def swapRemove {α : Type*} (v : List α) (i : ℕ) : List α :=
  match v.getLast? with
  | some top => (v.set i top).dropLast
  | none => v

/-- The loop of `trim_trailing`; every round takes a single or a range out. -/
def trimLoop : ℕ → ReusableSlots → ℕ → ReusableSlots × ℕ
  | 0, r, nextSlot => (r, nextSlot)
  | fuel + 1, r, nextSlot =>
    if nextSlot = 0 then (r, nextSlot)
    else if r.singles.getLast? = some (nextSlot - 1) then
      trimLoop fuel { r with singles := r.singles.dropLast } (nextSlot - 1)
    else
      match r.ranges.findIdx?
        (fun range => range.next ≤ nextSlot - 1 ∧ nextSlot - 1 ≤ range.last) with
      | none => (r, nextSlot)
      | some i =>
        match r.ranges[i]? with
        | none => (r, nextSlot)
        | some range => trimLoop fuel { r with ranges := swapRemove r.ranges i } range.next

def trimTrailing (r : ReusableSlots) (nextSlot : ℕ) : ReusableSlots × ℕ :=
  trimLoop (r.singles.length + r.ranges.length)
    { r with singles := r.singles.insertionSort (· ≤ ·) } nextSlot

/-- The loop of `reconstruct` over the used slots in order. -/
def scanUsed (nextSlot : ℕ) :
    List ℕ → ℕ → Option ℕ → List FreeSlotRange → Except SlotError (ℕ × List FreeSlotRange)
  | [], lower, _, ranges => .ok (lower, ranges)
  | slot :: rest, lower, previous, ranges =>
    if nextSlot ≤ slot then .error .slotPastNextSlot
    else if previous = some slot then .error .duplicateSlot
    else if h : lower < slot then
      scanUsed nextSlot rest (slot + 1) (some slot)
        (ranges ++ [⟨lower, slot - 1, Nat.le_sub_one_of_lt h⟩])
    else scanUsed nextSlot rest (slot + 1) (some slot) ranges

/-- The slots above the last used one. -/
def pushTail (nextSlot lower : ℕ) (ranges : List FreeSlotRange) : List FreeSlotRange :=
  if h : lower < nextSlot then ranges ++ [⟨lower, nextSlot - 1, Nat.le_sub_one_of_lt h⟩] else ranges

def reconstruct (nextSlot : ℕ) (usedSlots : List ℕ) : Except SlotError ReusableSlots :=
  match scanUsed nextSlot (usedSlots.insertionSort (· ≤ ·)) 0 none [] with
  | .error e => .error e
  | .ok (lower, ranges) => .ok ⟨[], (pushTail nextSlot lower ranges).reverse⟩

/-! ## Taking a slot and putting slots back -/

variable {r r' : ReusableSlots}

lemma pop_spec {slot : ℕ} (h : r.pop = some (slot, r')) : r.slots.Perm (slot :: r'.slots) := by
  unfold pop at h
  cases hs : r.singles.getLast? with
  | some top =>
    simp only [hs, Option.some.injEq, Prod.mk.injEq] at h
    obtain ⟨rfl, rfl⟩ := h
    have hsplit := dropLast_append_getLast? top hs
    rw [slots, ← hsplit]
    simp only [slots, append_assoc, dropLast_concat]
    exact perm_middle
  | none =>
    have hnil : r.singles = [] := getLast?_eq_none_iff.mp hs
    cases hr : r.ranges.getLast? with
    | none => simp [hs, hr] at h
    | some range =>
      have hsplit := dropLast_append_getLast? range hr
      have hslots : r.slots = r.ranges.dropLast.flatMap FreeSlotRange.slots ++ range.slots := by
        rw [slots, hnil, nil_append, ← hsplit, flatMap_append]
        simp
      have hhead : range.slots = range.next ::
          List.range' (range.next + 1) (range.last - range.next) := by
        have := range.le
        rw [FreeSlotRange.slots, show range.last + 1 - range.next =
          range.last - range.next + 1 by omega,
          range'_succ]
      simp only [hs, hr] at h
      rw [hslots, hhead]
      split_ifs at h with hlast
      · simp only [Option.some.injEq, Prod.mk.injEq] at h
        obtain ⟨rfl, rfl⟩ := h
        simp only [slots, hnil, hlast, Nat.sub_self, range'_zero, nil_append]
        exact perm_append_singleton _ _
      · simp only [Option.some.injEq, Prod.mk.injEq] at h
        obtain ⟨rfl, rfl⟩ := h
        have hrest : FreeSlotRange.slots
            ⟨range.next + 1, range.last, lt_of_le_of_ne range.le hlast⟩ =
              List.range' (range.next + 1) (range.last - range.next) := by
          rw [FreeSlotRange.slots, Nat.add_sub_add_right]
        simp only [slots, hnil, nil_append, flatMap_append, flatMap_cons,
          flatMap_nil, append_nil, hrest]
        exact perm_middle

lemma appendSlots_spec (r : ReusableSlots) (freed : List ℕ) :
    (r.appendSlots freed).slots.Perm (freed ++ r.slots) := by
  simp only [slots, appendSlots]
  rw [append_assoc, ← append_assoc freed, ← append_assoc r.singles]
  exact List.Perm.append_right _ perm_append_comm

/-! ## Lowering the high water -/

lemma swapRemove_spec {α : Type*} {v : List α} {i : ℕ} {a : α} (h : v[i]? = some a) :
    v.Perm (a :: swapRemove v i) := by
  obtain ⟨hi, rfl⟩ := List.getElem?_eq_some_iff.mp h
  cases htop : v.getLast? with
  | none =>
    rw [getLast?_eq_none_iff] at htop
    simp [htop] at hi
  | some top =>
    obtain ⟨l, rfl⟩ := getLast?_eq_some_iff.mp htop
    have hswap : swapRemove (l ++ [top]) i = ((l ++ [top]).set i top).dropLast := by
      rw [swapRemove, htop]
    rw [hswap]
    by_cases hlast : i < l.length
    · rw [set_append_left _ _ hlast, dropLast_concat, getElem_append_left hlast]
      have hset := set_perm_cons_eraseIdx hlast top
      have herase := getElem_cons_eraseIdx_perm hlast
      calc l ++ [top] ~ top :: l := perm_append_singleton _ _
        _ ~ top :: l[i] :: l.eraseIdx i := herase.symm.cons _
        _ ~ l[i] :: top :: l.eraseIdx i := List.Perm.swap _ _ _
        _ ~ l[i] :: l.set i top := hset.symm.cons _
    · have hi' : i = l.length := by
        rw [length_append, length_singleton] at hi
        omega
      subst hi'
      simp

/-- What `trim_trailing` does to slots that are all below the high water: some are forgotten,
and with them only those above the new high water. -/
structure Trims (r : ReusableSlots) (nextSlot : ℕ) (out : ReusableSlots × ℕ) : Prop where
  nodup : out.1.slots.Nodup
  subset : ∀ slot ∈ out.1.slots, slot ∈ r.slots
  below : ∀ slot ∈ out.1.slots, slot < out.2
  le : out.2 ≤ nextSlot
  keeps : ∀ slot < nextSlot, slot ∉ r.slots → slot < out.2

variable {nextSlot : ℕ}

lemma trims_self (hnodup : r.slots.Nodup) (hbelow : ∀ slot ∈ r.slots, slot < nextSlot) :
    Trims r nextSlot (r, nextSlot) :=
  ⟨hnodup, fun _ h => h, hbelow, le_refl _, fun _ h _ => h⟩

variable {lower : ℕ}

/-- One round: the slots from `lower` up go. -/
lemma Trims.of_round {gone : List ℕ} {out : ReusableSlots × ℕ}
    (hperm : r.slots.Perm (gone ++ r'.slots))
    (hgone : ∀ slot, slot ∈ gone ↔ lower ≤ slot ∧ slot < nextSlot) (hlower : lower ≤ nextSlot)
    (ht : Trims r' lower out) : Trims r nextSlot out := by
  refine ⟨ht.nodup, fun slot hslot => ?_, ht.below, ht.le.trans hlower, fun slot hlt hnot => ?_⟩
  · exact hperm.mem_iff.mpr (mem_append_right _ (ht.subset slot hslot))
  · have hnot' : slot ∉ gone ∧ slot ∉ r'.slots := by
      rw [hperm.mem_iff, mem_append, not_or] at hnot
      exact hnot
    refine ht.keeps slot ?_ hnot'.2
    by_contra hge
    exact hnot'.1 ((hgone slot).mpr ⟨not_lt.mp hge, hlt⟩)

/-- What is left after a round is below the new high water. -/
lemma below_of_round {gone : List ℕ} (hnodup : r.slots.Nodup)
    (hbelow : ∀ slot ∈ r.slots, slot < nextSlot) (hperm : r.slots.Perm (gone ++ r'.slots))
    (hgone : ∀ slot, slot ∈ gone ↔ lower ≤ slot ∧ slot < nextSlot) :
    r'.slots.Nodup ∧ ∀ slot ∈ r'.slots, slot < lower := by
  have hsplit := nodup_append.mp (hperm.nodup_iff.mp hnodup)
  refine ⟨hsplit.2.1, fun slot hslot => ?_⟩
  by_contra hge
  have hlt := hbelow slot (hperm.mem_iff.mpr (mem_append_right _ hslot))
  exact hsplit.2.2 slot ((hgone slot).mpr ⟨not_lt.mp hge, hlt⟩) slot hslot rfl

lemma trimLoop_spec {fuel : ℕ} (hnodup : r.slots.Nodup)
    (hbelow : ∀ slot ∈ r.slots, slot < nextSlot) :
    Trims r nextSlot (trimLoop fuel r nextSlot) := by
  induction fuel generalizing r nextSlot with
  | zero => exact trims_self hnodup hbelow
  | succ fuel ih =>
    rw [trimLoop]
    by_cases hzero : nextSlot = 0
    · rw [if_pos hzero]
      exact trims_self hnodup hbelow
    rw [if_neg hzero]
    by_cases hsingle : r.singles.getLast? = some (nextSlot - 1)
    · rw [if_pos hsingle]
      have hperm : r.slots.Perm
          ([nextSlot - 1] ++ ({ r with singles := r.singles.dropLast } : ReusableSlots).slots) := by
        have hsplit := dropLast_append_getLast? _ hsingle
        simp only [slots]
        nth_rewrite 1 [← hsplit]
        rw [append_assoc]
        exact perm_middle
      have hgone : ∀ slot, slot ∈ [nextSlot - 1] ↔ nextSlot - 1 ≤ slot ∧ slot < nextSlot := by
        intro slot
        rw [mem_singleton]
        omega
      obtain ⟨hnodup', hbelow'⟩ := below_of_round hnodup hbelow hperm hgone
      exact Trims.of_round hperm hgone (Nat.sub_le _ _) (ih hnodup' hbelow')
    · rw [if_neg hsingle]
      cases hfind : r.ranges.findIdx?
          (fun range => range.next ≤ nextSlot - 1 ∧ nextSlot - 1 ≤ range.last) with
      | none => exact trims_self hnodup hbelow
      | some i =>
        cases hget : r.ranges[i]? with
        | none =>
          simp only [hget]
          exact trims_self hnodup hbelow
        | some range =>
          simp only [hget]
          have hrange : range.next ≤ nextSlot - 1 ∧ nextSlot - 1 ≤ range.last := by
            obtain ⟨hi, hp, -⟩ := findIdx?_eq_some_iff_getElem.mp hfind
            rw [getElem?_eq_getElem hi, Option.some.injEq] at hget
            simpa [hget] using hp
          have hperm : r.slots.Perm (range.slots ++
              ({ r with ranges := swapRemove r.ranges i } : ReusableSlots).slots) := by
            have hswap := (swapRemove_spec hget).flatMap_right FreeSlotRange.slots
            simp only [slots]
            calc r.singles ++ r.ranges.flatMap FreeSlotRange.slots
                ~ r.singles ++ (range.slots ++
                    (swapRemove r.ranges i).flatMap FreeSlotRange.slots) := by
                  simpa using hswap.append_left r.singles
              _ ~ range.slots ++ (r.singles ++
                    (swapRemove r.ranges i).flatMap FreeSlotRange.slots) := by
                  rw [← append_assoc, ← append_assoc]
                  exact perm_append_comm.append_right _
          have hlast : range.last < nextSlot :=
            hbelow _ (hperm.mem_iff.mpr (mem_append_left _
              (FreeSlotRange.mem_slots.mpr ⟨range.le, le_refl _⟩)))
          have hgone : ∀ slot, slot ∈ range.slots ↔ range.next ≤ slot ∧ slot < nextSlot := by
            intro slot
            rw [FreeSlotRange.mem_slots]
            omega
          obtain ⟨hnodup', hbelow'⟩ := below_of_round hnodup hbelow hperm hgone
          exact Trims.of_round hperm hgone (by omega) (ih hnodup' hbelow')

theorem trimTrailing_spec (hnodup : r.slots.Nodup) (hbelow : ∀ slot ∈ r.slots, slot < nextSlot) :
    Trims r nextSlot (r.trimTrailing nextSlot) := by
  have hperm : ({ r with singles := r.singles.insertionSort (· ≤ ·) } : ReusableSlots).slots.Perm
      r.slots := (perm_insertionSort (· ≤ ·) r.singles).append_right _
  have ht := @trimLoop_spec _ nextSlot (r.singles.length + r.ranges.length)
    (hperm.nodup_iff.mpr hnodup) (fun slot hslot => hbelow slot (hperm.mem_iff.mp hslot))
  exact ⟨ht.nodup, fun slot hslot => hperm.mem_iff.mp (ht.subset slot hslot), ht.below, ht.le,
    fun slot hlt hnot => ht.keeps slot hlt (fun hmem => hnot (hperm.mem_iff.mp hmem))⟩

/-! ## Finding the free slots -/

lemma slots_gap {slot : ℕ} (h : lower < slot) :
    FreeSlotRange.slots ⟨lower, slot - 1, Nat.le_sub_one_of_lt h⟩ =
      List.range' lower (slot - lower) := by
  rw [FreeSlotRange.slots, Nat.sub_add_cancel (by omega)]

/-- Scanning used slots in order turns everything below them into ranges. -/
lemma scanUsed_spec {used : List ℕ} {previous : Option ℕ} {ranges : List FreeSlotRange}
    (hsorted : used.Pairwise (· < ·)) (hbelow : ∀ slot ∈ used, slot < nextSlot)
    (hlower : ∀ slot ∈ used, lower ≤ slot) (hprev : ∀ slot ∈ previous, slot < lower)
    (hnext : lower ≤ nextSlot) :
    ∃ lower' ranges', scanUsed nextSlot used lower previous ranges = .ok (lower', ranges') ∧
      lower ≤ lower' ∧ lower' ≤ nextSlot ∧
      ranges'.flatMap FreeSlotRange.slots ++ used ~
        ranges.flatMap FreeSlotRange.slots ++ List.range' lower (lower' - lower) := by
  induction used generalizing lower previous ranges with
  | nil => exact ⟨lower, ranges, rfl, le_refl _, hnext, by simp⟩
  | cons slot rest ih =>
    have hslot := hbelow slot mem_cons_self
    have hge := hlower slot mem_cons_self
    have hrest := pairwise_cons.mp hsorted
    have hfresh : previous ≠ some slot := fun heq => absurd (hprev slot heq) (not_lt.mpr hge)
    have hprev' : ∀ s ∈ some slot, s < slot + 1 := by
      intro s hs
      rw [Option.mem_some_iff] at hs
      omega
    -- the rest is scanned from just above this slot
    have hih : ∀ {ranges₁ : List FreeSlotRange} {gap : List ℕ},
        ranges₁.flatMap FreeSlotRange.slots = ranges.flatMap FreeSlotRange.slots ++ gap →
        gap = List.range' lower (slot - lower) →
        ∃ lower' ranges', scanUsed nextSlot rest (slot + 1) (some slot) ranges₁ =
            .ok (lower', ranges') ∧ lower ≤ lower' ∧ lower' ≤ nextSlot ∧
          ranges'.flatMap FreeSlotRange.slots ++ slot :: rest ~
            ranges.flatMap FreeSlotRange.slots ++ List.range' lower (lower' - lower) := by
      intro ranges₁ gap hranges hgap
      obtain ⟨lower', ranges', hscan, hle, hnext', hperm⟩ := @ih (slot + 1) (some slot) ranges₁
        hrest.2 (forall_mem_cons.mp hbelow).2 hrest.1 hprev' hslot
      refine ⟨lower', ranges', hscan, by omega, hnext', ?_⟩
      have hsplit : List.range' lower (lower' - lower) =
          gap ++ slot :: List.range' (slot + 1) (lower' - (slot + 1)) := by
        rw [hgap, show lower' - lower = (slot - lower) + (lower' - (slot + 1) + 1) by omega,
          ← range'_append_1, range'_succ, Nat.add_sub_cancel' hge]
      rw [hsplit, ← append_assoc, ← hranges]
      exact perm_middle.trans ((hperm.cons slot).trans perm_middle.symm)
    rw [scanUsed, if_neg (not_le.mpr hslot), if_neg hfresh]
    by_cases hgap : lower < slot
    · rw [dif_pos hgap]
      exact hih (by rw [flatMap_append, flatMap_singleton]) (slots_gap hgap)
    · rw [dif_neg hgap]
      exact hih (append_nil _).symm (by rw [Nat.sub_eq_zero_of_le (not_lt.mp hgap)]; rfl)

/-- The free and the used slots are all the slots below the high water. -/
theorem reconstruct_spec {used : List ℕ} (hnodup : used.Nodup)
    (hbelow : ∀ slot ∈ used, slot < nextSlot) :
    ∃ r, reconstruct nextSlot used = .ok r ∧ r.slots ++ used ~ List.range nextSlot := by
  have hperm := perm_insertionSort (· ≤ ·) used
  have hsorted : (used.insertionSort (· ≤ ·)).Pairwise (· < ·) :=
    ((pairwise_insertionSort (· ≤ ·) used).and (hperm.nodup_iff.mpr hnodup)).imp
      (fun h => lt_of_le_of_ne h.1 h.2)
  obtain ⟨lower, ranges, hscan, -, hnext, hall⟩ :=
    @scanUsed_spec nextSlot 0 (used.insertionSort (· ≤ ·)) none [] hsorted
      (fun slot hslot => hbelow slot (hperm.mem_iff.mp hslot)) (fun _ _ => Nat.zero_le _)
      nofun (Nat.zero_le _)
  have htail : (pushTail nextSlot lower ranges).flatMap FreeSlotRange.slots =
      ranges.flatMap FreeSlotRange.slots ++ List.range' lower (nextSlot - lower) := by
    unfold pushTail
    by_cases h : lower < nextSlot
    · rw [dif_pos h, flatMap_append, flatMap_singleton, slots_gap h]
    · rw [dif_neg h, Nat.sub_eq_zero_of_le (not_lt.mp h), range'_zero, append_nil]
  refine ⟨_, by rw [reconstruct, hscan], ?_⟩
  simp only [slots, nil_append]
  have hrange : List.range nextSlot = List.range' 0 lower ++
      List.range' lower (nextSlot - lower) := by
    have happend := @List.range'_append_1 0 lower (nextSlot - lower)
    rw [Nat.zero_add, Nat.add_sub_cancel' hnext] at happend
    rw [range_eq_range', happend]
  calc (pushTail nextSlot lower ranges).reverse.flatMap FreeSlotRange.slots ++ used
      ~ (ranges.flatMap FreeSlotRange.slots ++ List.range' lower (nextSlot - lower)) ++
          used.insertionSort (· ≤ ·) := by
        rw [← htail]
        exact ((reverse_perm _).flatMap_right _).append hperm.symm
    _ ~ (ranges.flatMap FreeSlotRange.slots ++ used.insertionSort (· ≤ ·)) ++
          List.range' lower (nextSlot - lower) := by
        rw [append_assoc, append_assoc]
        exact perm_append_comm.append_left _
    _ ~ List.range' 0 lower ++ List.range' lower (nextSlot - lower) := by
        simpa using hall.append_right (List.range' lower (nextSlot - lower))
    _ = List.range nextSlot := hrange.symm

end ReusableSlots

end Store
end Holt
