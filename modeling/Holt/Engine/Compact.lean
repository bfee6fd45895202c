import Holt.Engine.Clone

/-!
# Compaction

`compact_blob` rebuilds a frame: it measures the tree, plans a layout with the leaves in a region
of their own if that is worth it and fits, copies the tree without its tombstoned leaves into a
scratch frame, and puts that in place of the old one.  If the nodes that are not leaves should
overrun their arena, it starts over without a leaf region; the measure is exact, so this never
happens (`routing_budget_exact`).

An inner node that keeps one child becomes a prefix node, which is larger than a small inner node.
So a compacted frame may need more room than the frame had, and then compaction fails:
`compactBlob_fails_iff`.
-/

namespace Holt.Engine

open Option
open Store (Guid)
open Arena (Cell Owns Rewrites Space Sized size size_pos stop)
open Fallible

/-! ## The rebuild -/

/-- The scratch frame of a compaction. -/
def Frame.scratch (old : Header) : Frame :=
  { Frame.init old.blobGuid with
    header := { Header.init old.blobGuid with
      createdEpoch := old.createdEpoch
      epochHighWater := old.epochHighWater } }

/-- The header of the rebuilt frame. -/
def Header.finish (old new : Header) (intended lrs : Option ℕ) (entryOff leafCursor : ℕ) : Header :=
  let h := { new with
    root := entryOff
    tombstoneLeafCnt := 0
    deadBytes := 0
    compactTimes := min (old.compactTimes + 1) (2 ^ 32 - 1) }
  match lrs with
  | some start => { h with
      routingOff := dataAreaStart
      routingLen := new.spaceUsed - dataAreaStart
      leafRegionStart := start
      spaceUsed := leafCursor }
  | none => if intended.isSome then { h with routingUnfit := 1 } else h

/-- One round of the loop of `compact_blob`; there is no frame if the leaf region was overrun. -/
def rebuild (old : Header) (t : Tree) (intended lrs : Option ℕ) :
    Except WalkError (Option Frame) :=
  match exec (cloneSubtree true lrs.isSome (lrs.getD 0) t) (Frame.scratch old) with
  | (.error e, _) => .error e
  | (.ok (cloned, leafCursor), new) =>
    if lrs.any fun start => new.header.spaceUsed > start then .ok none
    else
      -- without a copy the sentinel is the root
      let entryOff := cloned.getD dataAreaStart
      .ok (some ⟨old.finish new.header intended lrs entryOff leafCursor, new.heap⟩)

/-- `compact_blob`. -/
def compactBlob : FrameM Unit := do
  let f ← get
  match f.tree with
  | none => throw (.nodeCorrupt "clone_subtree: src body resolution failed")
  | some t =>
    let routedLrs := Tree.routingGeometry (Tree.routingBudget t)
    match rebuild f.header t routedLrs routedLrs with
    | .error e => throw e
    | .ok (some new) => set new
    | .ok none =>
      match rebuild f.header t routedLrs none with
      | .error e => throw e
      | .ok (some new) => set new
      | .ok none => throw (.nodeCorrupt "unreachable: only a leaf region is overrun")

/-! ## The layout -/

lemma dvd_pageAlignUp (off : ℕ) : 8 ∣ pageAlignUp off :=
  (by decide : 8 ∣ page4K).mul_left _

lemma le_pageAlignUp (off : ℕ) : off ≤ pageAlignUp off := by
  unfold pageAlignUp page4K
  omega

variable {old : Header} {t : Tree} {u : Tree} {start : ℕ} {f f' : Frame} {path : List Byte}

lemma scratch_bounded (old : Header) : (Frame.scratch old).header.Bounded :=
  { (holds_init old.blobGuid).bounded with }

/-- The planned leaf region leaves room for both parts of the copy. -/
lemma routed_room (old : Header) (hstart : Tree.routingGeometry (some u.budgetOf) = some start)
    (hslots : 1 + u.count ≤ maxSlots) :
    Placeable start ∧ Room (some start) (Frame.scratch old) start u.need := by
  unfold Tree.routingGeometry at hstart
  simp only at hstart
  split_ifs at hstart with hnone hfew hfits
  cases hstart
  have hle := le_pageAlignUp (dataAreaStart + NodeType.emptyRoot.size + u.budgetOf.routingBytes)
  refine ⟨⟨?_, dvd_pageAlignUp _⟩, hslots, (fun h => nomatch h), ?_⟩
  · simp only [NodeType.size] at hle ⊢
    omega
  · rintro start hsome
    cases hsome
    exact ⟨le_rfl, hle, hfits⟩

lemma routingRegion_eq {h : Header} (hlen : h.routingLen ≠ 0) (hlow : dataAreaStart ≤ h.routingOff)
    (hoff : h.routingOff < h.leafRegionStart) (hpage : h.leafRegionStart ≤ pageSize)
    (hend : h.routingOff + h.routingLen ≤ h.leafRegionStart) :
    h.routingRegion = some ⟨h.routingOff, h.leafRegionStart⟩ := by
  unfold Header.routingRegion
  rw [if_neg hlen, if_neg (by omega)]

/-- A frame that holds what was left of the tree. -/
structure Rebuilt (old : Header) (u : Option Tree) (f' : Frame) (t' : Art ℕ) : Prop where
  holds : f'.Holds t'
  plain : t'.plain = u.getD (.emptyRoot ())
  guid : f'.header.blobGuid = old.blobGuid
  createdEpoch : f'.header.createdEpoch = old.createdEpoch
  epochHighWater : f'.header.epochHighWater = old.epochHighWater

lemma rebuilt_none (old : Header) (intended : Option ℕ) :
    Rebuilt old none ⟨old.finish (Frame.scratch old).header intended none dataAreaStart 0,
      (Frame.scratch old).heap⟩ (.emptyRoot dataAreaStart) := by
  have hinit := holds_init old.blobGuid
  unfold Header.finish
  split_ifs
  all_goals
    constructor
    case holds => exact ⟨{ hinit.bounded with }, rfl, hinit.owns, .inl rfl, fun h => absurd rfl h⟩
    all_goals rfl

/-- The header of the new frame describes the arena that the copy has filled. -/
lemma rebuilt_some {lrs intended : Option ℕ} {cursor : ℕ} {t' : Art ℕ}
    (hgrows : Grows lrs (Frame.scratch old) (lrs.getD 0) f cursor t'.cells)
    (hplain : t'.plain = u) (hroom : ∀ start, lrs = some start →
      Placeable start ∧ Room (some start) (Frame.scratch old) start u.need) :
    Rebuilt old (some u) ⟨old.finish f.header intended lrs t'.note cursor, f.heap⟩ t' := by
  have hsame := Header.eq_of_kept hgrows.kept
  have hbounded := hgrows.bounded (scratch_bounded old)
  have hkept : f.header.blobGuid = old.blobGuid ∧ f.header.createdEpoch = old.createdEpoch ∧
      f.header.epochHighWater = old.epochHighWater := by
    rw [hsame]
    exact ⟨rfl, rfl, rfl⟩
  obtain ⟨hguid, hcreated, hepoch⟩ := hkept
  cases lrs with
  | none =>
    have hlen : f.header.routingLen = 0 := by
      rcases hgrows.routing with h | ⟨h, -⟩
      · exact h
      · exact h
    unfold Header.finish
    split_ifs
    all_goals
      refine ⟨?_, hplain, hguid, hcreated, hepoch⟩
      exact hgrows.holds Nat.one_pos { hbounded with } rfl rfl subset_rfl fun h => absurd hlen h
  | some start =>
    -- leaves lie from the planned start on, all other nodes below it
    obtain ⟨hstart, hroom⟩ := hroom start rfl
    obtain ⟨-, hend, hpage⟩ := hroom.routed start rfl
    have hused := hgrows.used
    have hcursor := hgrows.cursor
    rw [routingSize_of_plain hplain] at hused
    rw [leafSize_of_plain hplain] at hcursor
    have haligned : 8 ∣ cursor := by
      rw [hgrows.cursor]
      exact hstart.2.add dvd_leafSize
    simp only [isSome_some, if_true, Nat.add_zero, getD_some] at hused hcursor
    change f.header.spaceUsed = dataAreaStart + 8 + u.routingBytes at hused
    change dataAreaStart + 8 + u.routingBytes ≤ start at hend
    change start + u.leafBytes + spilloverReservation ≤ pageSize at hpage
    refine ⟨?_, hplain, hguid, hcreated, hepoch⟩
    refine hgrows.holds Nat.one_pos ?_ rfl rfl ?_ fun _ => ?_
    · refine ⟨haligned, ?_, ?_, hbounded.slots_pos, hbounded.slots_le⟩
      · change dataAreaStart + 8 ≤ cursor
        omega
      · change cursor ≤ pageSize
        omega
    · exact fun n hn => .inr hn
    · constructor
      case region =>
        apply routingRegion_eq
        · change f.header.spaceUsed - dataAreaStart ≠ 0
          omega
        · exact le_rfl
        · change dataAreaStart < start
          omega
        · change start ≤ pageSize
          omega
        · change dataAreaStart + (f.header.spaceUsed - dataAreaStart) ≤ start
          omega
      case leaves => exact fun c hc hleaf => (hgrows.layout rfl c hc).1 hleaf
      case others =>
        intro c hc hother
        obtain ⟨hlo, hhi⟩ := (hgrows.layout rfl c hc).2 hother
        change dataAreaStart + 8 ≤ c.1 at hlo
        change dataAreaStart ≤ c.1 ∧ stop c ≤ dataAreaStart + (f.header.spaceUsed - dataAreaStart)
        omega

/-- A rebuild without a leaf region succeeds exactly when the copy fits a new frame. -/
lemma rebuild_legacy (old : Header) (t : Tree) (intended : Option ℕ) :
    match rebuild old t intended none with
    | .error e => (∃ a, e = .alloc a) ∧ ∃ u, Tree.prune t = some u ∧ ¬ u.FitsFrame
    | .ok r => (∀ u, Tree.prune t = some u → u.FitsFrame) ∧
        ∃ f' t', r = some f' ∧ Rebuilt old (Tree.prune t) f' t' := by
  have hends := ends_cloneSubtree true t none (Frame.scratch old) 0
    ⟨scratch_bounded old, fun h => nomatch h⟩ fun h => nomatch h
  rw [show Tree.cloned true t = Tree.prune t from rfl] at hends
  unfold Ends at hends
  unfold rebuild
  simp only [isSome_none, getD_none, any_none, Bool.false_eq_true,
    if_false] at hends ⊢
  revert hends
  have hiff : ∀ u : Tree, Room none (Frame.scratch old) 0 u.need ↔ u.FitsFrame := fun u =>
    ⟨fun h => ⟨h.slots, h.legacy rfl⟩, fun h => ⟨h.1, fun _ => h.2, fun _ h => nomatch h⟩⟩
  obtain ⟨e | ⟨cloned, cursor⟩, f⟩ := exec (cloneSubtree true false 0 t) (Frame.scratch old)
  · rintro ⟨u, hu, hstuck⟩
    exact ⟨hstuck.2.1, u, hu, fun hfits => hstuck.2.2.1 ((hiff u).mpr hfits)⟩
  · intro hcloned
    cases hu : Tree.prune t with
    | none =>
      rw [hu] at hcloned
      obtain ⟨hr, rfl⟩ := hcloned
      cases hr
      exact ⟨(fun _ h => nomatch h), _, _, rfl, rebuilt_none old intended⟩
    | some u =>
      rw [hu] at hcloned
      obtain ⟨t', hplain, hoff, hgrows, hroom⟩ := hcloned
      simp only at hoff
      subst hoff
      have hfits := (hiff u).mp (hroom rfl)
      refine ⟨fun u' h => Option.some.inj h ▸ hfits, _, t', rfl, ?_⟩
      exact rebuilt_some hgrows hplain fun _ h => nomatch h

/-- A rebuild with the leaf region that was planned succeeds: the arena of the other nodes is not
overrun. -/
lemma rebuild_routed (old : Header) (intended : Option ℕ) (hu : Tree.prune t = some u)
    (hslots : 1 + u.count ≤ maxSlots)
    (hstart : Tree.routingGeometry (Tree.routingBudget t) = some start) :
    ∃ f' t', rebuild old t intended (some start) = .ok (some f') ∧
      Rebuilt old (some u) f' t' ∧ u.FitsFrame := by
  rw [Tree.routingBudget_eq, hu, map_some] at hstart
  obtain ⟨hplace, hroom⟩ := routed_room old hstart hslots
  obtain ⟨-, hend, hpage⟩ := hroom.routed start rfl
  have hfits : u.FitsFrame := by
    have hreserve := u.reserve_le
    change dataAreaStart + 8 + u.routingBytes ≤ start at hend
    change start + u.leafBytes + spilloverReservation ≤ pageSize at hpage
    exact ⟨hslots, by omega⟩
  have hends := ends_cloneSubtree true t (some start) (Frame.scratch old) start
    ⟨scratch_bounded old, fun _ => hplace⟩ fun _ u' hu' => by
      cases hu.symm.trans hu'
      exact hroom
  rw [show Tree.cloned true t = some u from hu] at hends
  unfold Ends at hends
  unfold rebuild
  simp only [isSome_some, getD_some, any_some] at hends ⊢
  revert hends
  obtain ⟨e | ⟨cloned, cursor⟩, f⟩ := exec (cloneSubtree true true start t) (Frame.scratch old)
  · rintro ⟨u', -, hlrs, -⟩
    cases hlrs
  · rintro ⟨t', hplain, hoff, hgrows, -⟩
    simp only at hoff
    subst hoff
    have hused := hgrows.used
    rw [routingSize_of_plain hplain] at hused
    have hinside : ¬ f.header.spaceUsed > start := by
      rw [hused]
      exact not_lt.mpr hend
    simp only [hinside, decide_false, Bool.false_eq_true, if_false]
    refine ⟨_, t', rfl, rebuilt_some hgrows hplain ?_, hfits⟩
    intro start' h
    cases h
    exact ⟨hplace, hroom⟩

/-! ## What compaction does -/

/-- The slots of a frame suffice for what is left of its tree. -/
lemma Frame.Holds.slots_prune {t : Art ℕ} (h : f.Holds t) (hu : Tree.prune t.plain = some u) :
    1 + u.count ≤ maxSlots := by
  have hle := Tree.count_prune_le hu
  have hmax := h.bounded.slots_le
  rw [Art.count_plain, ← Art.length_cells] at hle
  rcases h.sentinel with rfl | ⟨-, hlt⟩
  · have hone : (Art.emptyRoot dataAreaStart).cells.length = 1 := rfl
    have hmax : 2 ≤ maxSlots := by decide
    omega
  · omega

/-- A layout is only planned for a tree of which something is left. -/
lemma exists_prune_of_geometry
    (hstart : Tree.routingGeometry (Tree.routingBudget t) = some start) :
    ∃ u, Tree.prune t = some u := by
  rw [Tree.routingBudget_eq] at hstart
  cases hu : Tree.prune t with
  | none => simp [hu, Tree.routingGeometry] at hstart
  | some u => exact ⟨u, rfl⟩

/-- Compaction replaces the frame by the copy, or fails because the copy does not fit. -/
lemma ends_compactBlob {t : Art ℕ} (h : f.Holds t) :
    Ends compactBlob f
      (fun _ f' => (∀ u, Tree.prune t.plain = some u → u.FitsFrame) ∧
        ∃ t', Rebuilt f.header (Tree.prune t.plain) f' t')
      (fun e f' => f' = f ∧ (∃ a, e = .alloc a) ∧
        ∃ u, Tree.prune t.plain = some u ∧ ¬ u.FitsFrame) := by
  unfold compactBlob
  refine ends_get_bind ?_
  rw [h.tree]
  simp only
  cases hgeometry : Tree.routingGeometry (Tree.routingBudget t.plain) with
  | none =>
    have hlegacy := rebuild_legacy f.header t.plain none
    revert hlegacy
    cases rebuild f.header t.plain none none with
    | error e => exact fun hno => ends_throw ⟨rfl, hno⟩
    | ok r =>
      rintro ⟨hfits, f', t', rfl, hrebuilt⟩
      exact ⟨hfits, t', hrebuilt⟩
  | some start =>
    obtain ⟨u, hu⟩ := exists_prune_of_geometry hgeometry
    obtain ⟨f', t', hrebuild, hrebuilt, hfits⟩ :=
      rebuild_routed f.header (some start) hu (h.slots_prune hu) hgeometry
    rw [hrebuild, hu]
    exact ⟨fun u' h => Option.some.inj h ▸ hfits, t', hrebuilt⟩

namespace Rebuilt

variable {t' : Art ℕ}

lemma leaves (h : Rebuilt old (Tree.prune t) f' t') : t'.leaves = t.live := by
  rw [← Art.leaves_plain, h.plain, ← Tree.leaves_prune t]
  cases Tree.prune t <;> rfl

lemma edges (h : Rebuilt old (Tree.prune t) f' t') (path : List Byte) :
    t'.edges path = t.edges path := by
  rw [← Art.edges_plain, h.plain, ← Tree.edges_prune t path]
  cases Tree.prune t <;> rfl

lemma wf (h : Rebuilt old (Tree.prune t) f' t') (ht : t.Wf path) : t'.Wf path := by
  rw [← Art.wf_plain, h.plain]
  cases hu : Tree.prune t with
  | none => exact trivial
  | some u => exact Tree.wf_prune ht hu

end Rebuilt

/-- Compaction keeps the live leaves and the edges, drops the tombstones, and keeps whose frame it
is; if it fails nothing has changed. -/
theorem compact_preserves_map (f : Frame) (path : List Byte) (hwf : f.WellFormed path) :
    match exec compactBlob f with
    | (.ok _, f') => f'.WellFormed path ∧ ∃ t t' : Tree, f.tree = some t ∧ f'.tree = some t' ∧
        t'.leaves = t.live ∧ t'.edges path = t.edges path ∧
        (∀ l ∈ t'.leaves, l.tombstone = false) ∧
        f'.header.blobGuid = f.header.blobGuid ∧
        f'.header.createdEpoch = f.header.createdEpoch ∧
        f'.header.epochHighWater = f.header.epochHighWater
    | (.error _, f') => f' = f := by
  obtain ⟨t, hholds, ht⟩ := hwf
  have hends := ends_compactBlob hholds
  unfold Ends at hends
  revert hends
  obtain ⟨e | a, f'⟩ := exec compactBlob f
  · exact fun h => h.1
  · rintro ⟨-, t', hrebuilt⟩
    refine ⟨⟨t', hrebuilt.holds, hrebuilt.wf ((Art.wf_plain t).mpr ht)⟩, t.plain, t'.plain,
      hholds.tree, hrebuilt.holds.tree, ?_, ?_, ?_, hrebuilt.guid, hrebuilt.createdEpoch,
      hrebuilt.epochHighWater⟩
    · rw [Art.leaves_plain, hrebuilt.leaves]
    · rw [Art.edges_plain, hrebuilt.edges path]
    · intro l hl
      rw [Art.leaves_plain, hrebuilt.leaves] at hl
      simpa using (List.mem_filter.mp hl).2

lemma length_zeroGuid : (List.replicate 16 (0 : Byte)).length = 16 := rfl

/-- Some guid. -/
def zeroGuid : Guid := ⟨List.replicate 16 0, length_zeroGuid⟩

/-- A tree that fits a new frame is the tree of some frame. -/
lemma exists_frame {t : Tree} (hfits : t.FitsFrame) (ht : t.Wf path) :
    ∃ f : Frame, makeBlobFromNode t zeroGuid = .ok f ∧ f.WellFormed path ∧ f.tree = some t := by
  have hspec := makeBlobFromNode_spec t zeroGuid
  revert hspec
  cases makeBlobFromNode t zeroGuid with
  | error e => exact fun h => absurd hfits h.2
  | ok f =>
    rintro ⟨-, t', hholds, rfl, -⟩
    exact ⟨f, rfl, ⟨t', hholds, (Art.wf_plain t').mp ht⟩, hholds.tree⟩

/-- An inner node with a live leaf, a tombstoned one and an edge. -/
def mixedTree : Tree :=
  .inner () .node4
    [(1, .leaf () ⟨[1, 0], [7], 1, false, 0⟩), (2, .leaf () ⟨[2, 0], [8], 2, true, 0⟩),
      (3, .blobNode () [4] zeroGuid)]

lemma mixedTree_wf : mixedTree.Wf [] := by
  refine ⟨by decide, by unfold SortedAssoc.Increasing; decide, ?_⟩
  refine ⟨⟨by decide, ⟨[1], rfl, .inl rfl⟩, by decide, by decide⟩,
    ⟨by decide, ⟨[2], rfl, .inl rfl⟩, by decide, by decide⟩, (by decide : 1 ≤ blobMaxInline),
    trivial⟩

/-- A new frame with the tree. -/
def mixedFrame : Frame :=
  match makeBlobFromNode mixedTree zeroGuid with
  | .ok f => f
  | .error _ => Frame.init zeroGuid

lemma mixedFrame_wf : mixedFrame.WellFormed [] ∧ mixedFrame.tree = some mixedTree := by
  obtain ⟨f, hmade, hwf, ht⟩ := exists_frame (t := mixedTree)
    (by unfold Tree.FitsFrame; decide) mixedTree_wf
  have heq : mixedFrame = f := by rw [mixedFrame, hmade]
  rw [heq]
  exact ⟨hwf, ht⟩

lemma mixedFrame_compacts : (exec compactBlob mixedFrame).1.toBool = true := by decide +kernel

theorem compact_preserves_map_mixed : mixedFrame.tree = some mixedTree ∧
    ∃ f', exec compactBlob mixedFrame = (.ok (), f') ∧
      f'.WellFormed [] ∧ ∃ t t' : Tree, mixedFrame.tree = some t ∧ f'.tree = some t' ∧
        t'.leaves = t.live ∧ t'.edges [] = t.edges [] ∧
        (∀ l ∈ t'.leaves, l.tombstone = false) ∧
        f'.header.blobGuid = mixedFrame.header.blobGuid ∧
        f'.header.createdEpoch = mixedFrame.header.createdEpoch ∧
        f'.header.epochHighWater = mixedFrame.header.epochHighWater := by
  refine ⟨mixedFrame_wf.2, ?_⟩
  have hspec := compact_preserves_map mixedFrame [] mixedFrame_wf.1
  have hok := mixedFrame_compacts
  revert hspec hok
  obtain ⟨e | a, f'⟩ := exec compactBlob mixedFrame
  · intro _ hok
    cases hok
  · exact fun hspec _ => ⟨f', rfl, hspec⟩

/-- A frame has room for a tree unless the tree is too large. -/
lemma fitsFrame_iff (hslots : 1 + u.count ≤ maxSlots) :
    u.FitsFrame ↔ dataAreaStart + NodeType.emptyRoot.size + u.routingBytes + u.leafBytes +
      spilloverReservation ≤ pageSize := by
  refine ⟨fun h => ?_, fun h => ⟨hslots, le_trans ?_ h⟩⟩
  · cases u with
    | blobNode note bytes guid =>
      change dataAreaStart + 8 + 128 + 0 + spilloverReservation ≤ pageSize
      decide
    | _ => exact h.2
  · exact Nat.add_le_add_left u.reserve_le _

/-- Compaction runs out of room exactly when the tree without its tombstoned leaves, as it is
measured, does not fit the data area beside the sentinel. -/
theorem compactBlob_fails_iff (f : Frame) (path : List Byte) (hwf : f.WellFormed path) :
    (∀ e f', exec compactBlob f ≠ (.error (.alloc e), f')) ↔
      ∀ t b, f.tree = some t → Tree.routingBudget t = some b →
        dataAreaStart + NodeType.emptyRoot.size + b.routingBytes + b.leafBytes +
          spilloverReservation ≤ pageSize := by
  obtain ⟨t, hholds, -⟩ := hwf
  have hends := ends_compactBlob hholds
  have hcondition : (∀ u, Tree.prune t.plain = some u → u.FitsFrame) ↔
      ∀ t b, f.tree = some t → Tree.routingBudget t = some b →
        dataAreaStart + NodeType.emptyRoot.size + b.routingBytes + b.leafBytes +
          spilloverReservation ≤ pageSize := by
    constructor
    · rintro hfits t₁ b ht hb
      cases hholds.tree.symm.trans ht
      rw [Tree.routingBudget_eq] at hb
      obtain ⟨u, hu, rfl⟩ := map_eq_some_iff.mp hb
      exact (fitsFrame_iff (hholds.slots_prune hu)).mp (hfits u hu)
    · intro hbytes u hu
      refine (fitsFrame_iff (hholds.slots_prune hu)).mpr (hbytes t.plain u.budgetOf hholds.tree ?_)
      rw [Tree.routingBudget_eq, hu, map_some]
  rw [← hcondition]
  unfold Ends at hends
  revert hends
  obtain ⟨e | a, f'⟩ := exec compactBlob f
  · rintro ⟨rfl, ⟨a, rfl⟩, u, hu, hno⟩
    exact ⟨fun h => absurd rfl (h a f'), fun h => absurd (h u hu) hno⟩
  · rintro ⟨hfits, -⟩
    exact ⟨fun _ => hfits, fun _ e f' h => nomatch (Prod.mk.inj h).1⟩

theorem compactBlob_fails_iff_mixed : mixedFrame.tree = some mixedTree ∧
    (exec compactBlob mixedFrame).1.toBool = true ∧
    ((∀ e f', exec compactBlob mixedFrame ≠ (.error (.alloc e), f')) ↔
      ∀ t b, mixedFrame.tree = some t → Tree.routingBudget t = some b →
        dataAreaStart + NodeType.emptyRoot.size + b.routingBytes + b.leafBytes +
          spilloverReservation ≤ pageSize) :=
  ⟨mixedFrame_wf.2, mixedFrame_compacts, compactBlob_fails_iff mixedFrame [] mixedFrame_wf.1⟩

/-- A leaf of 59872 bytes. -/
def bulkyLeaf (byte : Byte) : Leaf := ⟨[byte, 0], List.replicate 59854 0, 1, false, 0⟩

/-- A leaf of 24 bytes. -/
def thinLeaf (byte : Byte) (tombstone : Bool) : Leaf := ⟨[9, byte, 0], [], 2, tombstone, 0⟩

/-- Eight large leaves and a small inner node with two leaves, one of them tombstoned: they fill a
frame to the last byte. -/
def crowdedTree : Tree :=
  .inner () .node16
    [(1, .leaf () (bulkyLeaf 1)), (2, .leaf () (bulkyLeaf 2)), (3, .leaf () (bulkyLeaf 3)),
      (4, .leaf () (bulkyLeaf 4)), (5, .leaf () (bulkyLeaf 5)), (6, .leaf () (bulkyLeaf 6)),
      (7, .leaf () (bulkyLeaf 7)), (8, .leaf () (bulkyLeaf 8)),
      (9, .inner () .node4
        [(1, .leaf () (thinLeaf 1 false)), (2, .leaf () (thinLeaf 2 true))])]

lemma bulkyLeaf_bodySize (byte : Byte) : (bulkyLeaf byte).bodySize = 59872 := by
  change leafBodySize 2 (List.replicate 59854 0).length = 59872
  rw [List.length_replicate]
  rfl

lemma thinLeaf_bodySize (byte : Byte) (tombstone : Bool) :
    (thinLeaf byte tombstone).bodySize = 24 := by
  simp [thinLeaf, Leaf.bodySize, leafBodySize]

lemma bulkyLeaf_stored (byte : Byte) : (bulkyLeaf byte).Stored [byte] where
  under := ⟨[0], rfl⟩
  whole := ⟨[byte], rfl, .inl rfl⟩
  keyLen := (by decide : 2 ≤ 65535)
  valueLen := (List.length_replicate : (List.replicate 59854 (0 : Byte)).length = _).trans_le
    (by decide)

lemma thinLeaf_stored (byte : Byte) (tombstone : Bool) :
    (thinLeaf byte tombstone).Stored [9, byte] where
  under := ⟨[0], rfl⟩
  whole := ⟨[9, byte], rfl, .inl rfl⟩
  keyLen := (by decide : 3 ≤ 65535)
  valueLen := Nat.zero_le _

lemma crowdedTree_wf : crowdedTree.Wf [] := by
  refine ⟨by decide, by unfold SortedAssoc.Increasing; decide, ?_⟩
  refine ⟨bulkyLeaf_stored 1, bulkyLeaf_stored 2, bulkyLeaf_stored 3, bulkyLeaf_stored 4,
    bulkyLeaf_stored 5, bulkyLeaf_stored 6, bulkyLeaf_stored 7, bulkyLeaf_stored 8, ?_, trivial⟩
  refine ⟨by decide, by unfold SortedAssoc.Increasing; decide, ?_⟩
  exact ⟨thinLeaf_stored 1 false, thinLeaf_stored 2 true, trivial⟩

lemma crowdedTree_fits : crowdedTree.FitsFrame := by
  refine ⟨by decide, ?_⟩
  simp [crowdedTree, Art.routingBytes, Art.leafBytes, Art.internals, Art.leaves, Tree.reserve,
    bulkyLeaf_bodySize, thinLeaf_bodySize, NodeType.size, NodeKind.size, dataAreaStart, pageSize,
    spilloverReservation]

lemma crowdedTree_budget : Tree.routingBudget crowdedTree = some ⟨184, 479000⟩ := by
  have hlive : ∀ byte, (bulkyLeaf byte).tombstone = false := fun _ => rfl
  have hmark : ∀ byte tombstone, (thinLeaf byte tombstone).tombstone = tombstone :=
    fun _ _ => rfl
  simp [crowdedTree, Tree.routingBudget, Tree.budgetInner, Tree.packedInnerSize, hlive, hmark,
    bulkyLeaf_bodySize, thinLeaf_bodySize, NodeType.size, NodeKind.size]

/-- The compaction of a well-formed frame fails: the small inner node becomes a prefix node. -/
theorem compactBlob_out_of_room : ∃ f : Frame, f.WellFormed [] ∧ f.tree = some crowdedTree ∧
    ∃ e, exec compactBlob f = (.error (.alloc e), f) := by
  obtain ⟨f, -, hwf, htree⟩ := exists_frame crowdedTree_fits crowdedTree_wf
  refine ⟨f, hwf, htree, ?_⟩
  obtain ⟨t, hholds, -⟩ := hwf
  have hends := ends_compactBlob hholds
  have hplain : t.plain = crowdedTree := Option.some.inj (hholds.tree.symm.trans htree)
  rw [hplain] at hends
  have hbudget := crowdedTree_budget
  rw [Tree.routingBudget_eq] at hbudget
  obtain ⟨u, hu, hsize⟩ := map_eq_some_iff.mp hbudget
  unfold Ends at hends
  revert hends
  obtain ⟨e | a, f'⟩ := exec compactBlob f
  · rintro ⟨rfl, ⟨a, rfl⟩, -⟩
    exact ⟨a, rfl⟩
  · rintro ⟨hfits, -⟩
    have hroom := (fitsFrame_iff (hfits u hu).1).mp (hfits u hu)
    have hrouting : u.routingBytes = 184 := congrArg Tree.BudgetNode.routingBytes hsize
    have hleaf : u.leafBytes = 479000 := congrArg Tree.BudgetNode.leafBytes hsize
    rw [hrouting, hleaf] at hroom
    exact absurd hroom (by decide)

/-! ## The budget -/

/-- The copy that a compaction makes places what was measured. -/
lemma clone_of_budget {t : Art ℕ} {r : Option ℕ × ℕ} {f₁ : Frame} {lrs : Option ℕ}
    (h : f.Holds t) (hlrs : Tree.routingGeometry (Tree.routingBudget t.plain) = lrs)
    (hclone : exec (cloneSubtree true lrs.isSome (lrs.getD 0) t.plain) (Frame.scratch f.header) =
      (.ok r, f₁)) :
    ∃ new, Grows lrs (Frame.scratch f.header) (lrs.getD 0) f₁ r.2 new ∧
      routingSize new = ((Tree.routingBudget t.plain).map (·.routingBytes)).getD 0 ∧
      leafSize new = ((Tree.routingBudget t.plain).map (·.leafBytes)).getD 0 := by
  have hsite : ∀ u, Tree.prune t.plain = some u → ∀ start, lrs = some start →
      Placeable start ∧ Room (some start) (Frame.scratch f.header) start u.need := by
    rintro u hu start rfl
    rw [Tree.routingBudget_eq, hu, map_some] at hlrs
    exact routed_room f.header hlrs (h.slots_prune hu)
  have hcloned := (ends_cloneSubtree true t.plain lrs (Frame.scratch f.header) (lrs.getD 0) ⟨
    scratch_bounded f.header, fun hsome => ?_⟩ fun hsome u hu => ?_).of_ok hclone
  · rw [show Tree.cloned true t.plain = Tree.prune t.plain from rfl] at hcloned
    rw [Tree.routingBudget_eq]
    cases hu : Tree.prune t.plain with
    | none =>
      rw [hu] at hcloned
      obtain ⟨rfl, rfl⟩ := hcloned
      exact ⟨[], Grows.nil _ _ _, rfl, rfl⟩
    | some u =>
      rw [hu] at hcloned
      obtain ⟨t', hplain, -, hgrows, -⟩ := hcloned
      exact ⟨t'.cells, hgrows, routingSize_of_plain hplain, leafSize_of_plain hplain⟩
  · obtain ⟨start, rfl⟩ := isSome_iff_exists.mp hsome
    obtain ⟨u, hu⟩ := exists_prune_of_geometry hlrs
    exact (hsite u hu start rfl).1
  · obtain ⟨start, rfl⟩ := isSome_iff_exists.mp hsome
    exact (hsite u hu start rfl).2

/-- The measurement is exact: the copy places bodies of just the bytes that were measured, inner
nodes and leaves apart, and takes them from their arenas; the arena of the inner nodes is never
overrun; and in a frame with a routed layout the bodies lie in their regions and apart. -/
theorem routing_budget_exact (f : Frame) (path : List Byte) (t : Tree) (hwf : f.WellFormed path)
    (ht : f.tree = some t) :
    let budget := Tree.routingBudget t
    let lrs := Tree.routingGeometry budget
    (∀ r f₁, exec (cloneSubtree true lrs.isSome (lrs.getD 0) t) (Frame.scratch f.header) =
        (.ok r, f₁) →
      ∃ new, Grows lrs (Frame.scratch f.header) (lrs.getD 0) f₁ r.2 new ∧
        routingSize new = (budget.map (·.routingBytes)).getD 0 ∧
        leafSize new = (budget.map (·.leafBytes)).getD 0) ∧
    rebuild f.header t lrs lrs ≠ .ok none ∧
    (∀ f', exec compactBlob f = (.ok (), f') → f'.header.routingLen ≠ 0 →
      ∃ t', f'.placed = some t' ∧ Routed f'.header t' ∧ t'.cells.Pairwise Arena.Apart) := by
  obtain ⟨t₁, hholds, -⟩ := hwf
  cases hholds.tree.symm.trans ht
  refine ⟨fun r f₁ hclone => clone_of_budget hholds rfl hclone, ?_, ?_⟩
  · cases hlrs : Tree.routingGeometry (Tree.routingBudget t₁.plain) with
    | none =>
      have hlegacy := rebuild_legacy f.header t₁.plain none
      intro heq
      rw [heq] at hlegacy
      obtain ⟨-, f', t', hnone, -⟩ := hlegacy
      cases hnone
    | some start =>
      obtain ⟨u, hu⟩ := exists_prune_of_geometry hlrs
      obtain ⟨f', t', hrebuild, -⟩ :=
        rebuild_routed f.header (some start) hu (hholds.slots_prune hu) hlrs
      rw [hrebuild]
      exact fun h => nomatch h
  · intro f' hexec hlen
    obtain ⟨-, t', hrebuilt⟩ := (ends_compactBlob hholds).of_ok hexec
    exact ⟨t', hrebuilt.holds.placed, hrebuilt.holds.routed hlen, hrebuilt.holds.owns.apart⟩

/-- Two large leaves: enough for a leaf region. -/
def broadTree : Tree :=
  .inner () .node4 [(1, .leaf () (bulkyLeaf 1)), (2, .leaf () (bulkyLeaf 2))]

lemma broadTree_geometry :
    Tree.routingGeometry (Tree.routingBudget broadTree) = some 49152 := by
  have hlive : ∀ byte, (bulkyLeaf byte).tombstone = false := fun _ => rfl
  have hbudget : Tree.routingBudget broadTree = some ⟨16, 119744⟩ := by
    simp [broadTree, Tree.routingBudget, Tree.budgetInner, Tree.packedInnerSize, hlive,
      bulkyLeaf_bodySize, NodeType.size, NodeKind.size]
  rw [hbudget]
  decide

theorem routing_budget_exact_broad : ∃ f : Frame, f.tree = some broadTree ∧
    (∀ r f₁, exec (cloneSubtree true true 49152 broadTree) (Frame.scratch f.header) =
        (.ok r, f₁) →
      ∃ new, Grows (some 49152) (Frame.scratch f.header) 49152 f₁ r.2 new ∧
        routingSize new = ((Tree.routingBudget broadTree).map (·.routingBytes)).getD 0 ∧
        leafSize new = ((Tree.routingBudget broadTree).map (·.leafBytes)).getD 0) ∧
    rebuild f.header broadTree (some 49152) (some 49152) ≠ .ok none ∧
    (∀ f', exec compactBlob f = (.ok (), f') → f'.header.routingLen ≠ 0 →
      ∃ t', f'.placed = some t' ∧ Routed f'.header t' ∧ t'.cells.Pairwise Arena.Apart) := by
  have hfits : broadTree.FitsFrame := by
    refine ⟨by decide, ?_⟩
    simp [broadTree, Art.routingBytes, Art.leafBytes, Art.internals, Art.leaves, Tree.reserve,
      bulkyLeaf_bodySize, NodeType.size, NodeKind.size, dataAreaStart, pageSize,
      spilloverReservation]
  have hwf : broadTree.Wf [] :=
    ⟨by decide, by unfold SortedAssoc.Increasing; decide, bulkyLeaf_stored 1, bulkyLeaf_stored 2,
      trivial⟩
  obtain ⟨f, -, hframe, ht⟩ := exists_frame hfits hwf
  have hexact := routing_budget_exact f [] broadTree hframe ht
  simp only [broadTree_geometry] at hexact
  exact ⟨f, ht, hexact⟩

end Holt.Engine
