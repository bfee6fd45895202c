import Holt.Store.Manifest

/-!
# Moving blobs to lower slots

`vacuum` moves the blobs with the highest slots into the lowest reusable ones.
`relocation_plan` walks through the blobs downwards and through the reusable ranges upwards,
until the two meet; `apply_relocation_plan` changes the entries, finds the free slots again and
lowers the high water.

A plan moves each blob from its own slot to a lower one that was reusable, and no two to the
same (`Plan`).  So no slot comes to two uses (`applyRelocationPlan_spec`).
-/

namespace Holt
namespace Store

open List
open scoped List

structure SlotMove where
  guid : Guid
  fromSlot : ℕ
  toSlot : ℕ
deriving DecidableEq

/-! ## The reusable slots in order -/

/-- The loop of `compact_ranges` over ranges in order; `last` is the one that may still grow. -/
def coalesce : FreeSlotRange → List FreeSlotRange → List FreeSlotRange
  | last, [] => [last]
  | last, range :: rest =>
    if range.next ≤ last.last + 1 then
      coalesce ⟨last.next, max last.last range.last, last.le.trans (le_max_left _ _)⟩ rest
    else last :: coalesce range rest

/-- All reusable slots as ranges. -/
def ReusableSlots.allRanges (r : ReusableSlots) : List FreeSlotRange :=
  r.ranges ++ r.singles.map (fun slot => ⟨slot, slot, le_refl slot⟩)

def ReusableSlots.compactRanges (r : ReusableSlots) : List FreeSlotRange :=
  match r.allRanges.insertionSort (fun a b => a.next ≤ b.next) with
  | [] => []
  | range :: rest => coalesce range rest

lemma slots_single (slot : ℕ) : FreeSlotRange.slots ⟨slot, slot, le_refl slot⟩ = [slot] := by
  simp [FreeSlotRange.slots]

variable {slot : ℕ}

lemma ReusableSlots.mem_allRanges {r : ReusableSlots} :
    slot ∈ r.allRanges.flatMap FreeSlotRange.slots ↔ slot ∈ r.slots := by
  simp only [allRanges, slots, flatMap_append, flatMap_map, slots_single,
    flatMap_singleton', mem_append]
  exact or_comm

/-- Merging ranges in order keeps their slots, each once and in order. -/
lemma coalesce_spec {last : FreeSlotRange} {rest : List FreeSlotRange}
    (hsorted : (last :: rest).Pairwise (fun a b => a.next ≤ b.next)) :
    ((coalesce last rest).flatMap FreeSlotRange.slots).Pairwise (· < ·) ∧
      ∀ slot, slot ∈ (coalesce last rest).flatMap FreeSlotRange.slots ↔
        slot ∈ (last :: rest).flatMap FreeSlotRange.slots := by
  induction rest generalizing last with
  | nil =>
    rw [coalesce, flatMap_singleton]
    exact ⟨pairwise_lt_range' 1 Nat.one_pos, fun _ => Iff.rfl⟩
  | cons range rest ih =>
    obtain ⟨hlast, hrest⟩ := pairwise_cons.mp hsorted
    have hle := hlast range mem_cons_self
    rw [coalesce]
    by_cases hjoin : range.next ≤ last.last + 1
    · rw [if_pos hjoin]
      have hsorted' : ((⟨last.next, max last.last range.last, last.le.trans (le_max_left _ _)⟩ :
          FreeSlotRange) :: rest).Pairwise (fun a b => a.next ≤ b.next) :=
        pairwise_cons.mpr ⟨fun x hx => hlast x (mem_cons_of_mem _ hx),
          (pairwise_cons.mp hrest).2⟩
      obtain ⟨hpair, hmem⟩ := ih hsorted'
      refine ⟨hpair, fun slot => (hmem slot).trans ?_⟩
      have hunion : slot ∈ FreeSlotRange.slots ⟨last.next, max last.last range.last,
          last.le.trans (le_max_left _ _)⟩ ↔ slot ∈ last.slots ∨ slot ∈ range.slots := by
        simp only [FreeSlotRange.mem_slots, le_max_iff]
        omega
      simp only [flatMap_cons, mem_append, hunion, or_assoc]
    · rw [if_neg hjoin]
      obtain ⟨hpair, hmem⟩ := ih hrest
      refine ⟨?_, fun slot => ?_⟩
      · rw [flatMap_cons, pairwise_append]
        refine ⟨pairwise_lt_range' 1 Nat.one_pos, hpair, fun a ha b hb => ?_⟩
        -- every later range begins above the end of this one
        obtain ⟨x, hx, hbx⟩ := mem_flatMap.mp ((hmem b).mp hb)
        have hbelow : range.next ≤ x.next := by
          rcases mem_cons.mp hx with rfl | hx
          · exact le_rfl
          · exact (pairwise_cons.mp hrest).1 x hx
        have ha' := FreeSlotRange.mem_slots.mp ha
        have hb' := FreeSlotRange.mem_slots.mp hbx
        omega
      · rw [flatMap_cons, flatMap_cons, mem_append, mem_append]
        exact or_congr Iff.rfl (hmem slot)

/-- The reusable slots in order. -/
def ReusableSlots.ordered (r : ReusableSlots) : List ℕ :=
  r.compactRanges.flatMap FreeSlotRange.slots

lemma ReusableSlots.ordered_spec (r : ReusableSlots) :
    r.ordered.Pairwise (· < ·) ∧ ∀ slot, slot ∈ r.ordered ↔ slot ∈ r.slots := by
  have : IsTrans FreeSlotRange (fun a b => a.next ≤ b.next) := ⟨fun _ _ _ => Nat.le_trans⟩
  have : Std.Total (fun a b : FreeSlotRange => a.next ≤ b.next) := ⟨fun _ _ => Nat.le_total _ _⟩
  have hperm := perm_insertionSort (fun a b : FreeSlotRange => a.next ≤ b.next) r.allRanges
  have hsorted := pairwise_insertionSort (fun a b : FreeSlotRange => a.next ≤ b.next)
    r.allRanges
  have hall : ∀ slot, slot ∈ (r.allRanges.insertionSort
      (fun a b => a.next ≤ b.next)).flatMap FreeSlotRange.slots ↔ slot ∈ r.slots := fun slot =>
    (hperm.flatMap_right _).mem_iff.trans r.mem_allRanges
  rw [ordered, compactRanges]
  cases hlist : r.allRanges.insertionSort (fun a b => a.next ≤ b.next) with
  | nil =>
    rw [hlist] at hall
    exact ⟨List.Pairwise.nil, hall⟩
  | cons range rest =>
    rw [hlist] at hall hsorted
    obtain ⟨hpair, hmem⟩ := coalesce_spec hsorted
    exact ⟨hpair, fun slot => (hmem slot).trans (hall slot)⟩

/-! ## The plan -/

/-- The loop of `relocation_plan`, over the blobs downwards and the reusable slots upwards. -/
def planMoves : List (ℕ × Guid) → List ℕ → List SlotMove
  | (fromSlot, guid) :: live, toSlot :: free =>
    if fromSlot ≤ toSlot then [] else ⟨guid, fromSlot, toSlot⟩ :: planMoves live free
  | _, _ => []

/-- The blobs from the highest slot down. -/
def Entries.downwards (entries : Entries) : List (ℕ × Guid) :=
  ((entries.entries.map (fun e => (e.2, e.1))).insertionSort (fun a b => a.1 ≤ b.1)).reverse

def Manifest.relocationPlan (m : Manifest) : List SlotMove :=
  planMoves m.entries.downwards m.reusable.ordered

/-- Moves of blobs to slots of a set, no two of the same blob or to the same slot. -/
structure Plan (entries : Entries) (free : List ℕ) (plan : List SlotMove) : Prop where
  guids : (plan.map SlotMove.guid).Nodup
  targets : (plan.map SlotMove.toSlot).Nodup
  sources : ∀ item ∈ plan, entries.lookup item.guid = some item.fromSlot
  free : ∀ item ∈ plan, item.toSlot ∈ free

lemma planMoves_sublist (live : List (ℕ × Guid)) (free : List ℕ) :
    ((planMoves live free).map (fun item => (item.fromSlot, item.guid))).Sublist live ∧
      ((planMoves live free).map SlotMove.toSlot).Sublist free := by
  induction live generalizing free with
  | nil => simp [planMoves]
  | cons entry live ih =>
    cases free with
    | nil => simp [planMoves]
    | cons toSlot free =>
      obtain ⟨fromSlot, guid⟩ := entry
      rw [planMoves]
      by_cases hmeet : fromSlot ≤ toSlot
      · rw [if_pos hmeet]
        simp
      · rw [if_neg hmeet]
        exact ⟨(ih free).1.cons_cons _, (ih free).2.cons_cons _⟩

variable {free : List ℕ}

lemma planMoves_lt {live : List (ℕ × Guid)} :
    ∀ item ∈ planMoves live free, item.toSlot < item.fromSlot := by
  fun_induction planMoves live free with
  | case1 fromSlot guid live toSlot free hmeet => simp
  | case2 fromSlot guid live toSlot free hmeet ih =>
    exact forall_mem_cons.mpr ⟨Nat.lt_of_not_le hmeet, ih⟩
  | case3 => simp

/-- The moves separate the slots: those in use afterwards are below those that are free. -/
lemma planMoves_separates {live : List (ℕ × Guid)} (hlive : (live.map Prod.fst).Pairwise (· > ·))
    (hfree : free.Pairwise (· < ·)) (hapart : ∀ slot ∈ live.map Prod.fst, slot ∉ free)
    {used unused : ℕ} (hused : used ∈ (planMoves live free).map SlotMove.toSlot ∨
      used ∈ live.map Prod.fst ∧ used ∉ (planMoves live free).map SlotMove.fromSlot)
    (hunused : unused ∈ (planMoves live free).map SlotMove.fromSlot ∨
      unused ∈ free ∧ unused ∉ (planMoves live free).map SlotMove.toSlot) : used < unused := by
  fun_induction planMoves live free with
  | case1 fromSlot guid live toSlot free hmeet =>
    -- the two walks have met: all blobs are below all free slots
    have hu := (hused.resolve_left not_mem_nil).1
    have hq := (hunused.resolve_left not_mem_nil).1
    have hne := hapart used hu
    have hle : used ≤ fromSlot := by
      rcases mem_cons.mp hu with rfl | hu
      · exact le_rfl
      · exact Nat.le_of_lt ((pairwise_cons.mp hlive).1 used hu)
    rcases mem_cons.mp hq with rfl | hq
    · exact Nat.lt_of_le_of_ne (hle.trans hmeet) fun heq => hne (heq ▸ mem_cons_self)
    · exact (hle.trans hmeet).trans_lt ((pairwise_cons.mp hfree).1 unused hq)
  | case2 fromSlot guid live toSlot free hmeet ih =>
    obtain ⟨habove, hlive⟩ := pairwise_cons.mp hlive
    obtain ⟨hbelow, hfree⟩ := pairwise_cons.mp hfree
    obtain ⟨hfrom, hto⟩ := planMoves_sublist live free
    have hsource : ∀ item ∈ planMoves live free, item.fromSlot < fromSlot := fun item hitem =>
      habove _ (List.mem_map_of_mem (hfrom.subset (List.mem_map_of_mem hitem)))
    have htarget : ∀ item ∈ planMoves live free, toSlot < item.toSlot := fun item hitem =>
      hbelow _ (hto.subset (List.mem_map_of_mem hitem))
    have hunused' : unused = fromSlot ∨ (unused ∈ (planMoves live free).map SlotMove.fromSlot ∨
        unused ∈ free ∧ unused ∉ (planMoves live free).map SlotMove.toSlot) := by
      simp only [map_cons, mem_cons, not_or] at hunused
      tauto
    have hused' : used = toSlot ∨ (used ∈ (planMoves live free).map SlotMove.toSlot ∨
        used ∈ live.map Prod.fst ∧ used ∉ (planMoves live free).map SlotMove.fromSlot) := by
      simp only [map_cons, mem_cons, not_or] at hused
      tauto
    rcases hused' with rfl | hused'
    · rcases hunused' with rfl | hsrc | ⟨hq, -⟩
      · exact Nat.lt_of_not_le hmeet
      · obtain ⟨item, hitem, rfl⟩ := List.mem_map.mp hsrc
        exact (htarget item hitem).trans (planMoves_lt item hitem)
      · exact hbelow _ hq
    · rcases hunused' with rfl | hunused'
      · rcases hused' with htgt | ⟨hu, -⟩
        · obtain ⟨item, hitem, rfl⟩ := List.mem_map.mp htgt
          exact (planMoves_lt item hitem).trans (hsource item hitem)
        · exact habove _ hu
      · refine ih hlive hfree (fun slot hslot hmem => ?_) hused' hunused'
        exact hapart slot (mem_cons_of_mem _ hslot) (mem_cons_of_mem _ hmem)
  | case3 live free hnil =>
    cases live with
    | nil => simp at hused
    | cons entry live =>
      cases free with
      | nil => simp at hunused
      | cons toSlot free => exact (hnil _ _ _ _ _ rfl rfl).elim

lemma Entries.perm_downwards (entries : Entries) :
    entries.downwards ~ entries.entries.map (fun e => (e.2, e.1)) :=
  (reverse_perm _).trans (perm_insertionSort _ _)

lemma Entries.perm_fst_downwards (entries : Entries) :
    entries.downwards.map Prod.fst ~ entrySlots entries := by
  refine (entries.perm_downwards.map Prod.fst).trans (List.Perm.of_eq ?_)
  rw [List.map_map]
  rfl

lemma Entries.pairwise_downwards {entries : Entries} (h : (entrySlots entries).Nodup) :
    (entries.downwards.map Prod.fst).Pairwise (· > ·) := by
  have : IsTrans (ℕ × Guid) (fun a b => a.1 ≤ b.1) := ⟨fun _ _ _ => Nat.le_trans⟩
  have : Std.Total (fun a b : ℕ × Guid => a.1 ≤ b.1) := ⟨fun _ _ => Nat.le_total _ _⟩
  have hsorted := pairwise_insertionSort (fun a b : ℕ × Guid => a.1 ≤ b.1)
    (entries.entries.map (fun e => (e.2, e.1)))
  have hle : (entries.downwards.map Prod.fst).Pairwise (· ≥ ·) :=
    pairwise_map.mpr (pairwise_reverse.mpr hsorted)
  have hne : (entries.downwards.map Prod.fst).Pairwise (· ≠ ·) :=
    entries.perm_fst_downwards.nodup_iff.mpr h
  exact hle.imp₂ (fun _ _ hge hne => Nat.lt_of_le_of_ne hge hne.symm) hne

lemma Manifest.plan_relocationPlan (m : Manifest) :
    Plan m.entries m.reusable.slots m.relocationPlan := by
  set live := m.entries.downwards
  have hperm := m.entries.perm_downwards
  obtain ⟨hfrom, hto⟩ := planMoves_sublist live m.reusable.ordered
  obtain ⟨hordered, hmem⟩ := m.reusable.ordered_spec
  have hguids : (live.map Prod.snd).Nodup := by
    have hkeys := (hperm.map Prod.snd).nodup_iff.mpr (by
      rw [List.map_map]
      exact m.entries.nodupKeys)
    exact hkeys
  refine ⟨?_, ?_, fun item hitem => ?_, fun item hitem => ?_⟩
  · have hsub := (hfrom.map Prod.snd)
    rw [List.map_map] at hsub
    exact hguids.sublist hsub
  · exact (hordered.imp (fun h => Nat.ne_of_lt h)).sublist hto
  · have hin : (item.fromSlot, item.guid) ∈ live :=
      hfrom.subset (List.mem_map.mpr ⟨item, hitem, rfl⟩)
    obtain ⟨e, he, heq⟩ := List.mem_map.mp (hperm.mem_iff.mp hin)
    obtain ⟨hslot, hguid⟩ := Prod.mk.injEq .. ▸ heq
    rw [← hslot, ← hguid]
    exact AList.mem_lookup_iff.mpr he
  · exact (hmem item.toSlot).mp (hto.subset (List.mem_map.mpr ⟨item, hitem, rfl⟩))

/-! ## Making the moves -/

/-- The loop of `apply_relocation_plan`; `none` is its error. -/
def applyMoves : List SlotMove → Entries → Option Entries
  | [], entries => some entries
  | item :: plan, entries =>
    if entries.lookup item.guid = some item.fromSlot then
      applyMoves plan (entries.insert item.guid item.toSlot)
    else none

/-- Where a plan moves a blob to. -/
def movedTo (plan : List SlotMove) (guid : Guid) : Option ℕ :=
  (plan.find? (fun item => item.guid = guid)).map SlotMove.toSlot

/-- A map of slots after the moves. -/
def relocated (plan : List SlotMove) (map : SlotMap) : SlotMap :=
  fun guid => (movedTo plan guid).or (map guid)

variable {plan : List SlotMove}

lemma movedTo_eq_some {guid : Guid} (h : movedTo plan guid = some slot) :
    ∃ item ∈ plan, item.guid = guid ∧ item.toSlot = slot := by
  obtain ⟨item, hfind, hslot⟩ := Option.map_eq_some_iff.mp h
  exact ⟨item, mem_of_find?_eq_some hfind, by simpa using find?_some hfind, hslot⟩

lemma movedTo_of_mem (hguids : (plan.map SlotMove.guid).Nodup) {item : SlotMove}
    (hitem : item ∈ plan) : movedTo plan item.guid = some item.toSlot := by
  cases hmoved : movedTo plan item.guid with
  | none =>
    rw [movedTo, Option.map_eq_none_iff, find?_eq_none] at hmoved
    exact absurd (hmoved item hitem) (by simp)
  | some slot =>
    obtain ⟨item', hitem', hguid, rfl⟩ := movedTo_eq_some hmoved
    rw [inj_on_of_nodup_map hguids hitem' hitem hguid]

variable {entries : Entries}

lemma applyMoves_spec (hguids : (plan.map SlotMove.guid).Nodup)
    (hsources : ∀ item ∈ plan, entries.lookup item.guid = some item.fromSlot) :
    ∃ entries', applyMoves plan entries = some entries' ∧
      entries'.lookup = relocated plan entries.lookup := by
  induction plan generalizing entries with
  | nil => exact ⟨entries, rfl, funext fun _ => rfl⟩
  | cons item plan ih =>
    obtain ⟨hfresh, hguids⟩ := nodup_cons.mp hguids
    obtain ⟨hitem, hsources⟩ := forall_mem_cons.mp hsources
    have hother : ∀ x ∈ plan, (entries.insert item.guid item.toSlot).lookup x.guid =
        some x.fromSlot := by
      intro x hx
      have hne : x.guid ≠ item.guid := fun heq =>
        hfresh (List.mem_map.mpr ⟨x, hx, heq⟩)
      rw [AList.lookup_insert_ne hne]
      exact hsources x hx
    obtain ⟨entries', happly, hlookup⟩ := ih hguids hother
    refine ⟨entries', by rw [applyMoves, if_pos hitem, happly],
      hlookup.trans (funext fun guid => ?_)⟩
    by_cases hguid : item.guid = guid
    · subst hguid
      have hnone : movedTo plan item.guid = none := by
        rw [movedTo, Option.map_eq_none_iff, find?_eq_none]
        intro x hx hxg
        exact hfresh (List.mem_map.mpr ⟨x, hx, by simpa using hxg⟩)
      have hmoved : movedTo (item :: plan) item.guid = some item.toSlot := by simp [movedTo]
      simp [relocated, hnone, hmoved, AList.lookup_insert]
    · simp [relocated, movedTo, hguid, AList.lookup_insert_ne (Ne.symm hguid)]

/-- A blob is in its old slot or in the target of its move. -/
lemma Plan.relocated_cases (hp : Plan entries free plan) {guid : Guid}
    (h : relocated plan entries.lookup guid = some slot) :
    (movedTo plan guid = none ∧ entries.lookup guid = some slot) ∨
      ∃ item ∈ plan, item.guid = guid ∧ item.toSlot = slot ∧ slot ∈ free := by
  rcases Option.or_eq_some_iff.mp h with hmoved | hkept
  · obtain ⟨item, hitem, hguid, rfl⟩ := movedTo_eq_some hmoved
    exact .inr ⟨item, hitem, hguid, rfl, hp.free item hitem⟩
  · exact .inl hkept

/-- No two blobs come to one slot: also if only some of the moves have been made. -/
lemma Plan.oneEach (hp : Plan entries free plan) (hone : OneEach entries.lookup)
    (hfree : ∀ guid slot, entries.lookup guid = some slot → slot ∉ free) {map : SlotMap}
    (hmap : ∀ guid, map guid = entries.lookup guid ∨
      map guid = relocated plan entries.lookup guid) : OneEach map := by
  -- every blob is in its own slot, or its move has been made
  have hcases : ∀ guid slot, map guid = some slot → entries.lookup guid = some slot ∨
      ∃ item ∈ plan, item.guid = guid ∧ item.toSlot = slot ∧ slot ∈ free := by
    intro guid slot hslot
    rcases hmap guid with hold | hnew
    · exact .inl (hold ▸ hslot)
    · exact (hp.relocated_cases (hnew ▸ hslot)).imp And.right id
  intro guid guid' slot h h'
  rcases hcases guid slot h with hold | ⟨item, hitem, hguid, hto, hin⟩
  · rcases hcases guid' slot h' with hold' | ⟨_, _, _, _, hin'⟩
    · exact hone guid guid' slot hold hold'
    · exact absurd hin' (hfree guid slot hold)
  · rcases hcases guid' slot h' with hold' | ⟨item', hitem', hguid', hto', -⟩
    · exact absurd hin (hfree guid' slot hold')
    · have hsame : item = item' :=
        inj_on_of_nodup_map hp.targets hitem hitem' (hto.trans hto'.symm)
      rw [← hguid, ← hguid', hsame]

/-- The slots in use after the moves. -/
lemma Plan.exists_relocated (hp : Plan entries free plan) (hone : OneEach entries.lookup) :
    (∃ guid, relocated plan entries.lookup guid = some slot) ↔
      slot ∈ plan.map SlotMove.toSlot ∨
        slot ∈ entrySlots entries ∧ slot ∉ plan.map SlotMove.fromSlot := by
  constructor
  · rintro ⟨guid, hguid⟩
    rcases hp.relocated_cases hguid with ⟨hnone, hold⟩ | ⟨item, hitem, -, rfl, -⟩
    · refine .inr ⟨mem_entrySlots.mpr ⟨guid, hold⟩, fun hmem => ?_⟩
      obtain ⟨item, hitem, rfl⟩ := List.mem_map.mp hmem
      obtain rfl := hone guid item.guid _ hold (hp.sources item hitem)
      exact absurd (hnone.symm.trans (movedTo_of_mem hp.guids hitem)) nofun
    · exact .inl (List.mem_map_of_mem hitem)
  · rintro (htarget | ⟨hold, hkept⟩)
    · obtain ⟨item, hitem, rfl⟩ := List.mem_map.mp htarget
      exact ⟨item.guid, by simp only [relocated, movedTo_of_mem hp.guids hitem, Option.some_or]⟩
    · obtain ⟨guid, hguid⟩ := mem_entrySlots.mp hold
      refine ⟨guid, ?_⟩
      cases hmoved : movedTo plan guid with
      | none => simpa only [relocated, hmoved, Option.none_or] using hguid
      | some target =>
        obtain ⟨item, hitem, rfl, -⟩ := movedTo_eq_some hmoved
        have hfrom : slot = item.fromSlot :=
          Option.some.inj (hguid.symm.trans (hp.sources item hitem))
        exact absurd (hfrom ▸ List.mem_map_of_mem hitem) hkept

lemma Plan.isSome_relocated (hp : Plan entries free plan) (guid : Guid) :
    (relocated plan entries.lookup guid).isSome = (entries.lookup guid).isSome := by
  cases hmoved : movedTo plan guid with
  | none => simp only [relocated, hmoved, Option.none_or]
  | some target =>
    obtain ⟨item, hitem, rfl, -⟩ := movedTo_eq_some hmoved
    simp [relocated, hmoved, hp.sources item hitem]

/-- Slots with no gap below them are the first ones. -/
lemma perm_range_of_closed {slots : List ℕ} (hnodup : slots.Nodup)
    (hclosed : ∀ slot ∈ slots, ∀ lower < slot, lower ∈ slots) :
    slots ~ List.range slots.length := by
  have hlt : ∀ slot ∈ slots, slot < slots.length := by
    intro slot hslot
    have hsub : List.range (slot + 1) ⊆ slots := by
      intro lower hlower
      rcases Nat.lt_or_eq_of_le (Nat.lt_succ_iff.mp (mem_range.mp hlower)) with hlt | rfl
      · exact hclosed slot hslot lower hlt
      · exact hslot
    simpa using (nodup_range.subperm hsub).length_le
  exact (hnodup.subperm fun slot hslot => mem_range.mpr (hlt slot hslot)).perm_of_length_le
    (by simp)

/-- Where every slot is in use or reusable, the moves leave no gap. -/
lemma Manifest.relocationPlan_closed {m : Manifest} (hsound : m.Sound [])
    (hfree : m.pendingFree = [])
    (hfull : ∀ slot < m.nextSlot, slot ∈ m.slots) {entries : Entries}
    (hentries : entries.lookup = relocated m.relocationPlan m.entries.lookup) :
    entrySlots entries ~ List.range (entrySlots entries).length := by
  have hp := m.plan_relocationPlan
  have hall := hsound.nodup
  rw [nil_append, Manifest.slots, hfree, append_nil] at hall
  obtain ⟨hlive, -, hapart⟩ := nodup_append.mp hall
  have hone := oneEach_of_nodup hlive
  have hmem : ∀ slot, slot ∈ entrySlots entries ↔
      slot ∈ m.relocationPlan.map SlotMove.toSlot ∨ slot ∈ entrySlots m.entries ∧
        slot ∉ m.relocationPlan.map SlotMove.fromSlot := by
    intro slot
    refine mem_entrySlots.trans (Iff.trans ?_ (hp.exists_relocated hone))
    rw [← hentries]
  obtain ⟨hordered, hreusable⟩ := m.reusable.ordered_spec
  have hdown : ∀ slot, slot ∈ m.entries.downwards.map Prod.fst ↔ slot ∈ entrySlots m.entries :=
    fun _ => m.entries.perm_fst_downwards.mem_iff
  have hone' : OneEach entries.lookup := hp.oneEach hone
    (fun guid slot hslot hin => hapart slot (mem_entrySlots.mpr ⟨guid, hslot⟩) slot hin rfl)
    fun guid => .inr (congrFun hentries guid)
  refine perm_range_of_closed (nodup_entrySlots hone') fun used hused lower hlower => ?_
  by_contra hunused
  -- a slot that is not in use has been left, or has stayed reusable
  have hbelow : lower < m.nextSlot := by
    refine hlower.trans (hsound.below used ?_)
    rw [nil_append, Manifest.slots, hfree, append_nil, mem_append]
    rcases (hmem used).mp hused with htarget | ⟨hold, -⟩
    · obtain ⟨item, hitem, rfl⟩ := List.mem_map.mp htarget
      exact .inr (hp.free item hitem)
    · exact .inl hold
  have hslot := hfull lower hbelow
  rw [Manifest.slots, hfree, append_nil, mem_append] at hslot
  rw [hmem, not_or, not_and, not_not] at hunused
  have hcase : lower ∈ m.relocationPlan.map SlotMove.fromSlot ∨
      lower ∈ m.reusable.ordered ∧ lower ∉ m.relocationPlan.map SlotMove.toSlot :=
    hslot.imp hunused.2 fun hin => ⟨(hreusable lower).mpr hin, hunused.1⟩
  refine absurd hlower (Nat.lt_asymm (planMoves_separates (m.entries.pairwise_downwards hlive)
    hordered (fun slot hslot hin => ?_) ?_ hcase))
  · exact hapart slot ((hdown slot).mp hslot) slot ((hreusable slot).mp hin) rfl
  · rw [hdown]
    exact (hmem used).mp hused

namespace Manifest

/-- `trim_trailing_free_slots`. -/
def trimTrailingFreeSlots (m : Manifest) : Manifest :=
  let m' := m.publishPendingFreeSlots
  { m' with
    reusable := (m'.reusable.trimTrailing m'.nextSlot).1
    nextSlot := (m'.reusable.trimTrailing m'.nextSlot).2 }

/-- `apply_relocation_plan`; `none` is an error. -/
def applyRelocationPlan (m : Manifest) (plan : List SlotMove) : Option Manifest :=
  if plan = [] then some m
  else
    match applyMoves plan m.entries with
    | none => none
    | some entries =>
      match ReusableSlots.reconstruct m.nextSlot (entrySlots entries) with
      | .error _ => none
      | .ok reusable => some
        { m with entries := entries, reusable := reusable }.trimTrailingFreeSlots

variable {m : Manifest}

lemma trimTrailingFreeSlots_sound (h : m.Sound []) :
    m.trimTrailingFreeSlots.Sound [] ∧ m.trimTrailingFreeSlots.nextSlot ≤ m.nextSlot :=
  trim_sound (publishPendingFreeSlots_sound h)

/-- After a plan is applied every slot has one use, and the blobs are where the plan says. -/
lemma applyRelocationPlan_spec (h : m.Sound []) (hfree : m.pendingFree = [])
    {plan : List SlotMove} (hp : Plan m.entries m.reusable.slots plan) (hne : plan ≠ []) :
    ∃ m', m.applyRelocationPlan plan = some m' ∧ m'.Sound [] ∧ m'.nextSlot ≤ m.nextSlot ∧
      m'.entries.lookup = relocated plan m.entries.lookup ∧ m'.pendingFree = [] ∧
      m'.pendingLog = m.pendingLog ∧ m'.logBytes = m.logBytes := by
  obtain ⟨entries, happly, hlookup⟩ := applyMoves_spec hp.guids hp.sources
  have hnodup : (entrySlots m.entries ++ m.reusable.slots).Nodup := by
    have hall := h.nodup
    rwa [nil_append, slots, hfree, append_nil] at hall
  obtain ⟨hlive, -, hdisjoint⟩ := nodup_append.mp hnodup
  have hone : OneEach entries.lookup := by
    refine hp.oneEach (oneEach_of_nodup hlive) ?_ (fun guid => .inr (congrFun hlookup guid))
    intro guid slot hslot hmem
    exact hdisjoint slot (mem_entrySlots.mpr ⟨guid, hslot⟩) slot hmem rfl
  have hbelow : ∀ slot ∈ entrySlots entries, slot < m.nextSlot := by
    intro slot hslot
    obtain ⟨guid, hguid⟩ := mem_entrySlots.mp hslot
    have hguid' : relocated plan m.entries.lookup guid = some slot :=
      (congrFun hlookup guid).symm.trans hguid
    refine h.below slot ?_
    rw [nil_append, slots, hfree, append_nil]
    rcases hp.relocated_cases hguid' with ⟨-, hold⟩ | ⟨_, _, _, _, hin⟩
    · exact mem_append_left _ (mem_entrySlots.mpr ⟨guid, hold⟩)
    · exact mem_append_right _ hin
  obtain ⟨reusable, hrec, hall⟩ := ReusableSlots.reconstruct_spec (nodup_entrySlots hone) hbelow
  have hsound : Sound { m with entries := entries, reusable := reusable } [] := by
    have hperm : [] ++ slots { m with entries := entries, reusable := reusable } ~
        List.range m.nextSlot := by
      rw [nil_append, slots, hfree, append_nil]
      exact perm_append_comm.trans hall
    exact ⟨hperm.nodup_iff.mpr nodup_range,
      fun slot hslot => mem_range.mp (hperm.mem_iff.mp hslot)⟩
  obtain ⟨hsound', hle⟩ := trimTrailingFreeSlots_sound hsound
  refine ⟨_, ?_, hsound', hle, hlookup, rfl, rfl, rfl⟩
  rw [applyRelocationPlan, if_neg hne, happly]
  simp only [hrec]

end Manifest

end Store
end Holt
