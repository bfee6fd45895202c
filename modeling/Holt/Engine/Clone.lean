import Holt.Engine.TreePrune
import Holt.Engine.Writers

/-!
# Copying a tree into a frame

`clone_subtree` copies a tree of one frame into another: all of it, or without its tombstoned
leaves, and with the leaves either behind the other nodes as they come or in an arena of their own
from a cursor on.  Only the tree that the source frame holds matters for the copy, so the model
takes the tree.

`ends_cloneSubtree` says what comes of it: the copy lies in the destination, its bodies take
exactly their bytes of either arena, and the copy fails only where there is no room for all of it.
-/

namespace Holt.Engine

open List Option
open Store (Guid)
open Arena (Cell Owns Rewrites Space Sized size size_pos stop)
open Fallible

/-! ## The copy -/

/-- `alloc_leaf_at`. -/
def allocLeafAt (bodyOff total : ℕ) : FrameM Unit := do
  let f ← get
  let ceiling := pageSize - spilloverReservation
  if f.header.numSlots ≥ maxSlots then throw (.alloc .outOfSlots)
  else if bodyOff > ceiling ∨ total > ceiling - bodyOff then
    throw (.alloc (.outOfSpace total (ceiling - bodyOff)))
  else
    set { f with header := { f.header with
      numSlots := f.header.numSlots + 1
      gapSpace := (f.header.gapSpace + total) % 2 ^ 32 } }

/-- `clone_leaf`. -/
def cloneLeaf (filterTombstones routed : Bool) (leafCursor : ℕ) (l : Leaf) :
    FrameM (Option ℕ × ℕ) :=
  if filterTombstones && l.tombstone then pure (none, leafCursor)
  else if routed then do
    allocLeafAt leafCursor l.bodySize
    writeBody leafCursor (.leaf l)
    pure (some leafCursor, leafCursor + l.bodySize)
  else do
    let off ← allocLeaf l.bodySize
    writeBody off (.leaf l)
    pure (some off, leafCursor)

/-- `clone_blob_node`. -/
def cloneBlobNode (bytes : List Byte) (guid : Guid) : FrameM ℕ := do
  let off ← allocBlobNode
  writeBody off (.blobNode bytes guid)
  pure off

/-- `pack_inner_node`. -/
def packInnerNode : List (Byte × ℕ) → FrameM (Option ℕ)
  | [] => pure none
  | [(byte, childOff)] => some <$> writePrefixChain [byte] childOff
  | survivors => some <$> placeNode (.inner (Tree.kindFor survivors.length) survivors)

mutual

/-- `clone_subtree`: the offset of the copy, if anything is left of it, and the leaf cursor. -/
def cloneSubtree (filterTombstones routed : Bool) : ℕ → Tree → FrameM (Option ℕ × ℕ)
  | leafCursor, .emptyRoot _ => do
    let off ← placeNode .emptyRoot
    pure (some off, leafCursor)
  | leafCursor, .leaf _ l => cloneLeaf filterTombstones routed leafCursor l
  | leafCursor, .prefixNode _ bytes child => do
    let (newChild, leafCursor) ← cloneSubtree filterTombstones routed leafCursor child
    match newChild with
    | none => pure (none, leafCursor)
    | some newChildOff => do
      let off ← placeNode (.prefixNode bytes newChildOff)
      pure (some off, leafCursor)
  | leafCursor, .inner _ kind children => do
    let (survivors, leafCursor) ← cloneChildren filterTombstones routed leafCursor children
    if filterTombstones then do
      let off ← packInnerNode survivors
      pure (off, leafCursor)
    else do
      let off ← placeNode (.inner kind survivors)
      pure (some off, leafCursor)
  | leafCursor, .blobNode _ bytes guid => do
    let off ← cloneBlobNode bytes guid
    pure (some off, leafCursor)

/-- The loops over the children of an inner node. -/
def cloneChildren (filterTombstones routed : Bool) :
    ℕ → List (Byte × Tree) → FrameM (List (Byte × ℕ) × ℕ)
  | leafCursor, [] => pure ([], leafCursor)
  | leafCursor, (byte, child) :: rest => do
    let (newChild, leafCursor) ← cloneSubtree filterTombstones routed leafCursor child
    let (survivors, leafCursor) ← cloneChildren filterTombstones routed leafCursor rest
    match newChild with
    | none => pure (survivors, leafCursor)
    | some off => pure ((byte, off) :: survivors, leafCursor)

end

/-! ## The copy on trees -/

namespace Tree

/-- What is copied of a tree. -/
def cloned (filterTombstones : Bool) (t : Tree) : Option Tree :=
  if filterTombstones then prune t else some t

/-- What is copied of the children of a node. -/
def clonedAll (filterTombstones : Bool) (children : List (Byte × Tree)) : List (Byte × Tree) :=
  if filterTombstones then pruneAll children else children

variable {filterTombstones : Bool}

lemma clonedAll_nil : clonedAll filterTombstones [] = [] := by
  cases filterTombstones <;> rfl

lemma clonedAll_cons (byte : Byte) (child : Tree) (rest : List (Byte × Tree)) :
    clonedAll filterTombstones ((byte, child) :: rest) =
      ((cloned filterTombstones child).map fun c => (byte, c)).toList ++
        clonedAll filterTombstones rest := by
  cases filterTombstones
  · rfl
  · exact pruneAll_cons child rest

lemma cloned_prefixNode (note : Unit) (bytes : List Byte) (child : Tree) :
    cloned filterTombstones (.prefixNode note bytes child) =
      (cloned filterTombstones child).map (.prefixNode () bytes) := by
  cases filterTombstones
  · rfl
  · rfl

lemma cloned_inner (note : Unit) (kind : NodeKind) (children : List (Byte × Tree)) :
    cloned filterTombstones (.inner note kind children) =
      if filterTombstones then pack (clonedAll filterTombstones children)
      else some (.inner () kind (clonedAll filterTombstones children)) := by
  cases filterTombstones
  · rfl
  · rfl

/-- The bytes at the end of a page that the last node of a copy leaves alone. -/
def reserve : Tree → ℕ
  | .blobNode _ _ _ => 0
  | _ => spilloverReservation

end Tree

/-! ## The bytes of bodies -/

/-- The bytes of the bodies that are not leaves. -/
def routingSize (cells : List (Cell Body)) : ℕ :=
  ((cells.filter fun c => c.2.ntype ≠ .leaf).map fun c => size c.2).sum

/-- The bytes of the leaves. -/
def leafSize (cells : List (Cell Body)) : ℕ :=
  ((cells.filter fun c => c.2.ntype = .leaf).map fun c => size c.2).sum

/-- The number of blob nodes. -/
def blobCount (cells : List (Cell Body)) : ℕ := cells.countP fun c => c.2.ntype = .blobNode

section Sizes

variable {cells new : List (Cell Body)} {c : Cell Body}

@[simp] lemma routingSize_append :
    routingSize (cells ++ new) = routingSize cells + routingSize new := by
  simp [routingSize]

@[simp] lemma leafSize_append : leafSize (cells ++ new) = leafSize cells + leafSize new := by
  simp [leafSize]

@[simp] lemma blobCount_append :
    blobCount (cells ++ new) = blobCount cells + blobCount new := by
  simp [blobCount]

lemma routingSize_perm (h : cells.Perm new) : routingSize cells = routingSize new :=
  ((h.filter _).map _).sum_eq

lemma leafSize_perm (h : cells.Perm new) : leafSize cells = leafSize new :=
  ((h.filter _).map _).sum_eq

lemma blobCount_perm (h : cells.Perm new) : blobCount cells = blobCount new :=
  h.countP_eq _

lemma dvd_leafSize : 8 ∣ leafSize cells := by
  apply dvd_sum
  intro n hn
  obtain ⟨c, -, rfl⟩ := List.mem_map.mp hn
  exact c.2.dvd_size

lemma routingSize_cons (h : c.2.ntype ≠ .leaf) :
    routingSize (c :: cells) = size c.2 + routingSize cells := by
  simp [routingSize, h]

lemma leafSize_cons (h : c.2.ntype ≠ .leaf) : leafSize (c :: cells) = leafSize cells := by
  simp [leafSize, h]

end Sizes

namespace Art

lemma sum_cellsAll (g : List (Cell Body) → ℕ) (g' : Art ℕ → ℕ)
    (hnil : g [] = 0) (happend : ∀ l l', g (l ++ l') = g l + g l')
    (children : List (Byte × Art ℕ)) (h : ∀ c ∈ children, g c.2.cells = g' c.2) :
    g (children.flatMap fun c => c.2.cells) = (children.map fun c => g' c.2).sum := by
  induction children with
  | nil => exact hnil
  | cons c rest ih =>
    rw [forall_mem_cons] at h
    rw [flatMap_cons, happend, h.1, ih h.2, map_cons, sum_cons]

lemma length_cells (t : Art ℕ) : t.cells.length = t.count := by
  induction t with
  | emptyRoot | leaf | blobNode => rfl
  | prefixNode off bytes child ih =>
    simp only [cells, count, internals, leaves, length_cons] at ih ⊢
    omega
  | inner off kind children ih =>
    rw [cells_inner, count_inner, length_cons,
      sum_cellsAll List.length count rfl (fun _ _ => length_append) children ih, Nat.add_comm]

/-- The records of a tree take the bytes that were counted for it. -/
lemma routingSize_cells (t : Art ℕ) : routingSize t.cells = t.routingBytes := by
  induction t with
  | emptyRoot | leaf | blobNode => rfl
  | prefixNode off bytes child ih =>
    rw [cells, routingSize_cons (by simp [Body.ntype]), ih]
    rfl
  | inner off kind children ih =>
    rw [cells_inner, routingSize_cons (by simp [Body.ntype]), routingBytes_inner,
      sum_cellsAll routingSize routingBytes rfl (fun _ _ => routingSize_append) children ih]
    rfl

lemma leafSize_cells (t : Art ℕ) : leafSize t.cells = t.leafBytes := by
  induction t with
  | emptyRoot | blobNode => rfl
  | leaf off l => rfl
  | prefixNode off bytes child ih =>
    rw [cells, leafSize_cons (by simp [Body.ntype]), ih]
    rfl
  | inner off kind children ih =>
    rw [cells_inner, leafSize_cons (by simp [Body.ntype]), leafBytes_inner,
      sum_cellsAll leafSize leafBytes rfl (fun _ _ => leafSize_append) children ih]

lemma blobCount_cells (t : Art ℕ) : blobCount t.cells = t.blobs := by
  induction t with
  | emptyRoot | leaf | blobNode => rfl
  | prefixNode off bytes child ih =>
    rw [cells, blobCount, countP_cons_of_neg (by simp [Body.ntype]), blobs, internals,
      count_cons_of_ne (by simp)]
    exact ih
  | inner off kind children ih =>
    rw [cells_inner, blobCount, countP_cons_of_neg (by simp [Body.ntype]), blobs,
      internals_inner, count_cons_of_ne (by simp), count_flatMap]
    exact sum_cellsAll blobCount blobs rfl (fun _ _ => blobCount_append) children ih

end Art

/-! ## Growing a frame -/

/-- The header without what a copy moves. -/
def Header.kept (h : Header) : Header :=
  { h with numSlots := 0, spaceUsed := 0, numExtBlobs := 0, gapSpace := 0, routingLen := 0 }

/-- The space of a frame that is being built: with a leaf region, that from the cursor on is
free as well. -/
def Frame.site (f : Frame) (lrs : Option ℕ) (leafCursor : ℕ) : Space Body where
  heap := f.heap
  free := match lrs with
    | none => {n | f.header.spaceUsed ≤ n}
    | some start => {n | f.header.spaceUsed ≤ n ∧ n < start ∨ leafCursor ≤ n}
  slots := f.header.numSlots

/-- The bodies `new` have been added to a frame: leaves to the leaf region, if there is one, and
everything else where the used part ends. -/
structure Grows (lrs : Option ℕ) (f : Frame) (leafCursor : ℕ) (f' : Frame) (leafCursor' : ℕ)
    (new : List (Cell Body)) : Prop where
  cells : Rewrites Body.ntype Placeable (f.site lrs leafCursor) (f'.site lrs leafCursor') [] new
  slots : f'.header.numSlots = f.header.numSlots + new.length
  used : f'.header.spaceUsed =
    f.header.spaceUsed + routingSize new + if lrs.isSome then 0 else leafSize new
  cursor : leafCursor' = leafCursor + if lrs.isSome then leafSize new else 0
  ext : f.header.numExtBlobs + blobCount new < 2 ^ 16 →
    f'.header.numExtBlobs = f.header.numExtBlobs + blobCount new
  kept : f'.header.kept = f.header.kept
  bounded : f.header.Bounded → f'.header.Bounded
  layout : lrs.isSome → ∀ c ∈ new, (c.2.ntype = .leaf → leafCursor ≤ c.1) ∧
    (c.2.ntype ≠ .leaf → f.header.spaceUsed ≤ c.1 ∧ stop c ≤ f'.header.spaceUsed)
  routing : f'.header.routingLen = 0 ∨
    f'.header.routingLen = f.header.routingLen ∧ f'.header.spaceUsed = f.header.spaceUsed

lemma Header.eq_of_kept {h h' : Header} (heq : h'.kept = h.kept) :
    h' = { h with
      numSlots := h'.numSlots
      spaceUsed := h'.spaceUsed
      numExtBlobs := h'.numExtBlobs
      gapSpace := h'.gapSpace
      routingLen := h'.routingLen } := by
  cases h
  cases h'
  simp only [Header.kept, Header.mk.injEq] at heq ⊢
  tauto

variable {lrs : Option ℕ} {f f₁ f₂ : Frame} {cursor cursor₁ cursor₂ : ℕ}
  {new new' : List (Cell Body)} {b : Body} {off : ℕ}

namespace Grows

lemma nil (lrs : Option ℕ) (f : Frame) (cursor : ℕ) : Grows lrs f cursor f cursor [] where
  cells := Rewrites.refl (Owns.nil _)
  slots := rfl
  used := by simp [routingSize, leafSize]
  cursor := by simp [leafSize]
  ext := fun _ => rfl
  kept := rfl
  bounded := id
  layout := fun _ c hc => absurd hc not_mem_nil
  routing := .inr ⟨rfl, rfl⟩

/-- Two copies, one after the other, add what both add. -/
lemma trans (h : Grows lrs f cursor f₁ cursor₁ new) (h' : Grows lrs f₁ cursor₁ f₂ cursor₂ new') :
    Grows lrs f cursor f₂ cursor₂ (new' ++ new) := by
  have hused : f.header.spaceUsed ≤ f₁.header.spaceUsed := by
    have := h.used
    omega
  have hused' : f₁.header.spaceUsed ≤ f₂.header.spaceUsed := by
    have := h'.used
    omega
  have hcursor : cursor ≤ cursor₁ := by
    have := h.cursor
    omega
  constructor
  case cells => exact h.cells.trans (h'.cells.frame (h.cells.owns (Owns.nil _)))
  case slots =>
    rw [h'.slots, h.slots, length_append]
    omega
  case used =>
    rw [h'.used, h.used, routingSize_append, leafSize_append]
    split_ifs <;> omega
  case cursor =>
    rw [h'.cursor, h.cursor, leafSize_append]
    split_ifs <;> omega
  case ext =>
    intro hext
    rw [blobCount_append] at hext ⊢
    have hfirst := h.ext (by omega)
    have hsecond := h'.ext (by omega)
    omega
  case kept => exact h'.kept.trans h.kept
  case bounded => exact h'.bounded ∘ h.bounded
  case layout =>
    intro hlrs c hc
    rcases mem_append.mp hc with hc | hc
    · have hlayout := h'.layout hlrs c hc
      exact ⟨fun hleaf => hcursor.trans (hlayout.1 hleaf),
        fun hother => ⟨hused.trans (hlayout.2 hother).1, (hlayout.2 hother).2⟩⟩
    · have hlayout := h.layout hlrs c hc
      exact ⟨hlayout.1, fun hother => ⟨(hlayout.2 hother).1, (hlayout.2 hother).2.trans hused'⟩⟩
  case routing =>
    rcases h'.routing with h' | ⟨hlen', hsame'⟩
    · exact .inl h'
    rcases h.routing with h | ⟨hlen, hsame⟩
    · exact .inl (hlen'.trans h)
    · exact .inr ⟨hlen'.trans hlen, hsame'.trans hsame⟩

lemma perm (h : Grows lrs f cursor f₁ cursor₁ new) (hp : new.Perm new') :
    Grows lrs f cursor f₁ cursor₁ new' where
  cells := h.cells.perm (List.Perm.refl _) hp
  slots := hp.length_eq ▸ h.slots
  used := by rw [h.used, routingSize_perm hp, leafSize_perm hp]
  cursor := by rw [h.cursor, leafSize_perm hp]
  ext := blobCount_perm hp ▸ h.ext
  kept := h.kept
  bounded := h.bounded
  layout := fun hlrs c hc => h.layout hlrs c (hp.mem_iff.mpr hc)
  routing := h.routing

/-- A body that is bumped into the frame. -/
lemma place {gap ext : ℕ} (hf : f.header.Bounded) (hslots : f.header.numSlots < maxSlots)
    (hroom : f.header.spaceUsed + size b ≤ pageSize)
    (harena : ∀ start, lrs = some start →
      b.ntype ≠ .leaf ∧ f.header.spaceUsed + size b ≤ start ∧ start ≤ cursor)
    (hext : f.header.numExtBlobs + blobCount [(f.header.spaceUsed, b)] < 2 ^ 16 →
      ext = f.header.numExtBlobs + blobCount [(f.header.spaceUsed, b)]) :
    Grows lrs f cursor
      ⟨{ f.header with
          numSlots := f.header.numSlots + 1
          spaceUsed := f.header.spaceUsed + size b
          numExtBlobs := ext
          gapSpace := gap
          routingLen := 0 }, Arena.write f.heap f.header.spaceUsed b⟩
      cursor [(f.header.spaceUsed, b)] := by
  constructor
  case cells =>
    apply Rewrites.place
    · exact ⟨hf.low, hf.aligned⟩
    · cases lrs with
      | none => exact fun n hn => (Nat.le_add_right _ _).trans hn
      | some start => exact fun n hn => hn.imp_left (.imp_left (Nat.le_add_right _ _).trans)
    · intro n hlo hhi
      cases lrs with
      | none => exact ⟨hlo, not_le.mpr hhi⟩
      | some start =>
        obtain ⟨-, hend, hcursor⟩ := harena start rfl
        simp only [Frame.site, Set.mem_ofPred_eq]
        omega
  case slots => rfl
  case used =>
    by_cases hleaf : b.ntype = .leaf
    · have hnone : lrs = none := by
        cases lrs with
        | none => rfl
        | some start => exact absurd hleaf (harena start rfl).1
      simp [hnone, routingSize, leafSize, hleaf]
    · simp [routingSize, leafSize, hleaf]
  case cursor =>
    cases lrs with
    | none => rfl
    | some start => simp [leafSize, (harena start rfl).1]
  case ext => exact hext
  case kept => rfl
  case bounded =>
    intro hb
    constructor
    · exact hb.aligned.add b.dvd_size
    · exact hb.low.trans (Nat.le_add_right _ _)
    · exact hroom
    · exact Nat.succ_pos _
    · exact hslots
  case layout =>
    intro hlrs c hc
    obtain rfl := mem_singleton.mp hc
    obtain ⟨start, rfl⟩ := isSome_iff_exists.mp hlrs
    exact ⟨fun hleaf => absurd hleaf (harena start rfl).1, fun _ => ⟨le_rfl, le_rfl⟩⟩
  case routing => exact .inl rfl

/-- A leaf that is put at the cursor of the leaf region. -/
lemma placeAt {gap start : ℕ} {l : Leaf} (hcursor : Placeable cursor)
    (hslots : f.header.numSlots < maxSlots) (hstart : start ≤ cursor) :
    Grows (some start) f cursor
      ⟨{ f.header with
          numSlots := f.header.numSlots + 1
          gapSpace := gap }, Arena.write f.heap cursor (.leaf l)⟩
      (cursor + l.bodySize) [(cursor, .leaf l)] := by
  constructor
  case cells =>
    apply Rewrites.place
    · exact hcursor
    · exact fun n hn => hn.imp_right (Nat.le_add_right _ _).trans
    · intro n hlo hhi
      change n < cursor + l.bodySize at hhi
      simp only [Frame.site, Set.mem_ofPred_eq]
      omega
  case slots => rfl
  case used => rfl
  case cursor => rfl
  case ext => exact fun _ => rfl
  case kept => rfl
  case bounded => exact fun hb => { hb with slots_pos := Nat.succ_pos _, slots_le := hslots }
  case layout =>
    intro _ c hc
    obtain rfl := mem_singleton.mp hc
    exact ⟨fun _ => le_rfl, fun hother => absurd rfl hother⟩
  case routing => exact .inr ⟨rfl, rfl⟩

end Grows

/-! ## Room -/

/-- What a copy needs. -/
structure Need where
  nodes : ℕ
  routing : ℕ
  leaf : ℕ
  reserved : ℕ
  blobs : ℕ

/-- What the copy of a tree needs. -/
def Tree.need (u : Tree) : Need := ⟨u.count, u.routingBytes, u.leafBytes, u.reserve, u.blobs⟩

/-- What the copies of trees need before another node. -/
def Tree.needAll (us : List (Byte × Tree)) : Need where
  nodes := (us.map fun c => c.2.count).sum
  routing := (us.map fun c => c.2.routingBytes).sum
  leaf := (us.map fun c => c.2.leafBytes).sum
  reserved := spilloverReservation
  blobs := (us.map fun c => c.2.blobs).sum

/-- No more is needed. -/
structure Need.Le (n n' : Need) : Prop where
  nodes : n.nodes ≤ n'.nodes
  routing : n.routing ≤ n'.routing
  leaf : n.leaf ≤ n'.leaf
  reserved : n.reserved ≤ n'.reserved
  blobs : n.blobs ≤ n'.blobs

/-- There is room for what is needed. -/
structure Room (lrs : Option ℕ) (f : Frame) (leafCursor : ℕ) (n : Need) : Prop where
  slots : f.header.numSlots + n.nodes ≤ maxSlots
  legacy : lrs = none → f.header.spaceUsed + n.routing + n.leaf + n.reserved ≤ pageSize
  routed : ∀ start, lrs = some start → start ≤ leafCursor ∧
    f.header.spaceUsed + n.routing ≤ start ∧ leafCursor + n.leaf + spilloverReservation ≤ pageSize

/-- An allocation has failed for want of room, in a build without a leaf region. -/
def Stuck (lrs : Option ℕ) (f : Frame) (leafCursor : ℕ) (n : Need) (e : WalkError) (f' : Frame) :
    Prop :=
  lrs = none ∧ (∃ a, e = .alloc a) ∧ ¬ Room none f leafCursor n ∧
    ∃ new, Grows none f leafCursor f' leafCursor new ∧ blobCount new ≤ n.blobs

variable {n n' : Need} {e : WalkError}

/-- The room that is left after a part has been copied. -/
lemma Room.after (hgrows : Grows lrs f cursor f₁ cursor₁ new) (h : Room lrs f cursor n)
    (hnodes : new.length + n'.nodes ≤ n.nodes)
    (hrouting : routingSize new + n'.routing ≤ n.routing)
    (hleaf : leafSize new + n'.leaf ≤ n.leaf) (hreserved : n'.reserved ≤ n.reserved) :
    Room lrs f₁ cursor₁ n' := by
  have hslots := hgrows.slots
  have hused := hgrows.used
  have hcursor := hgrows.cursor
  constructor
  case slots =>
    have := h.slots
    omega
  case legacy =>
    rintro rfl
    have := h.legacy rfl
    simp only [isSome_none, Bool.false_eq_true, if_false] at hused
    omega
  case routed =>
    rintro start rfl
    have := h.routed start rfl
    simp only [isSome_some, if_true] at hused hcursor
    omega

lemma Room.mono (h : Room lrs f cursor n') (hle : n.Le n') : Room lrs f cursor n :=
  h.after (Grows.nil lrs f cursor) ((Nat.zero_add _).trans_le hle.nodes)
    ((Nat.zero_add _).trans_le hle.routing) ((Nat.zero_add _).trans_le hle.leaf) hle.reserved

lemma Stuck.mono (h : Stuck lrs f cursor n e f₁) (hle : n.Le n') : Stuck lrs f cursor n' e f₁ := by
  obtain ⟨hlrs, halloc, hno, new, hgrows, hblobs⟩ := h
  exact ⟨hlrs, halloc, fun hr => hno (hr.mono hle), new, hgrows, hblobs.trans hle.blobs⟩

lemma Stuck.after (hgrows : Grows lrs f cursor f₁ cursor₁ new)
    (h : Stuck lrs f₁ cursor₁ n e f₂)
    (hroom : Room none f cursor n' → Room none f₁ cursor₁ n)
    (hblobs : blobCount new + n.blobs ≤ n'.blobs) : Stuck lrs f cursor n' e f₂ := by
  obtain ⟨rfl, halloc, hno, new', hgrows', hle⟩ := h
  obtain rfl : cursor₁ = cursor := hgrows.cursor
  refine ⟨rfl, halloc, fun hr => hno (hroom hr), new' ++ new, hgrows.trans hgrows', ?_⟩
  rw [blobCount_append]
  omega

/-- A failed bump: the slots or the bytes run out. -/
lemma Stuck.of_bump {reserved : ℕ} (halloc : ∃ a, e = .alloc a)
    (hno : ¬ (f.header.numSlots < maxSlots ∧
      f.header.spaceUsed + (n.routing + n.leaf) + reserved ≤ pageSize))
    (hnodes : n.nodes = 1) (hreserved : n.reserved = reserved)
    (hle : reserved ≤ spilloverReservation)
    (hroom : lrs.isSome → Room lrs f cursor n) : Stuck lrs f cursor n e f := by
  cases lrs with
  | none =>
    refine ⟨rfl, halloc, fun hr => hno ?_, [], Grows.nil _ _ _, Nat.zero_le _⟩
    have hslots := hr.slots
    have hspace := hr.legacy rfl
    exact ⟨by omega, by omega⟩
  | some start =>
    have hr := hroom rfl
    have hslots := hr.slots
    obtain ⟨hstart, hend, hpage⟩ := hr.routed start rfl
    exact absurd ⟨by omega, by omega⟩ hno

/-- Where a copy can start. -/
structure Site (lrs : Option ℕ) (f : Frame) (leafCursor : ℕ) : Prop where
  bounded : f.header.Bounded
  cursor : lrs.isSome → Placeable leafCursor

lemma Site.grows (h : Site lrs f cursor) (hgrows : Grows lrs f cursor f₁ cursor₁ new) :
    Site lrs f₁ cursor₁ where
  bounded := hgrows.bounded h.bounded
  cursor hlrs := by
    have hplace := h.cursor hlrs
    rw [hgrows.cursor, if_pos hlrs]
    exact ⟨hplace.1.trans (Nat.le_add_right _ _), hplace.2.add dvd_leafSize⟩

/-! ## What the helpers do -/

/-- What one more body needs. -/
def Body.need (b : Body) (reserved : ℕ) : Need where
  nodes := 1
  routing := routingSize [(0, b)]
  leaf := leafSize [(0, b)]
  reserved := reserved
  blobs := blobCount [(0, b)]

lemma Body.need_of_ne_leaf {reserved : ℕ} (h : b.ntype ≠ .leaf) :
    b.need reserved = ⟨1, size b, 0, reserved, blobCount [(0, b)]⟩ := by
  simp [need, routingSize, leafSize, h]

/-- One body has been placed, for which there was room. -/
def Placed (lrs : Option ℕ) (f : Frame) (leafCursor : ℕ) (b : Body) (reserved : ℕ) (off : ℕ)
    (f' : Frame) (leafCursor' : ℕ) : Prop :=
  Grows lrs f leafCursor f' leafCursor' [(off, b)] ∧
    (lrs = none → Room none f leafCursor (b.need reserved))

/-- `placeNode` places its body where there is room. -/
lemma ends_placeNode_room (hf : f.header.Bounded) (hsize : size b = b.ntype.size)
    (hleaf : b.ntype ≠ .leaf) (hblob : b.ntype ≠ .blobNode)
    (hroom : lrs.isSome → Room lrs f cursor (b.need spilloverReservation)) :
    Ends (placeNode b) f (fun off f' => Placed lrs f cursor b spilloverReservation off f' cursor)
      (Stuck lrs f cursor (b.need spilloverReservation)) := by
  rw [b.need_of_ne_leaf hleaf] at hroom
  unfold placeNode allocNode Placed
  rw [← hsize, b.need_of_ne_leaf hleaf]
  refine Ends.bind ((ends_bump_exact (size_pos b)).mono (fun _ _ h => h) ?_) ?_
  · rintro e f' ⟨halloc, rfl, hno⟩
    exact Stuck.of_bump halloc hno rfl rfl le_rfl hroom
  · rintro off f' ⟨rfl, rfl, hslots, hspace⟩
    refine ⟨Grows.place hf hslots (by omega) ?_ ?_, ?_⟩
    · rintro start rfl
      obtain ⟨hstart, hend, -⟩ := (hroom rfl).routed start rfl
      exact ⟨hleaf, hend, hstart⟩
    · intro _
      simp [blobCount, hblob]
    · rintro rfl
      exact ⟨hslots, fun _ => hspace, by simp⟩

lemma ends_cloneBlobNode {bytes : List Byte} {guid : Guid} (hf : f.header.Bounded)
    (hroom : lrs.isSome → Room lrs f cursor ((Body.blobNode bytes guid).need 0)) :
    Ends (cloneBlobNode bytes guid) f
      (fun off f' => Placed lrs f cursor (.blobNode bytes guid) 0 off f' cursor)
      (Stuck lrs f cursor ((Body.blobNode bytes guid).need 0)) := by
  unfold cloneBlobNode allocBlobNode
  refine Ends.bind (Q := fun off f' =>
    f.header.numSlots < maxSlots ∧ f.header.spaceUsed + NodeType.blobNode.size ≤ pageSize ∧
    off = f.header.spaceUsed ∧ f' = ⟨{ f.header with
          numSlots := f.header.numSlots + 1
          spaceUsed := f.header.spaceUsed + NodeType.blobNode.size
          numExtBlobs := min (f.header.numExtBlobs + 1) (2 ^ 16 - 1)
          gapSpace := (f.header.gapSpace + NodeType.blobNode.size) % 2 ^ 32
          routingLen := 0 }, f.heap⟩) ?_ ?_
  · refine Ends.bind ((ends_bump_exact (NodeType.size_pos _)).mono (fun _ _ h => h) ?_) ?_
    · rintro e f' ⟨halloc, rfl, hno⟩
      exact Stuck.of_bump halloc hno rfl rfl (Nat.zero_le _) hroom
    · rintro off f' ⟨rfl, rfl, hslots, hspace⟩
      exact ⟨hslots, hspace, rfl, rfl⟩
  · rintro off f' ⟨hslots, hspace, rfl, rfl⟩
    refine ⟨Grows.place (b := .blobNode bytes guid) hf hslots hspace ?_ ?_, ?_⟩
    · rintro start rfl
      obtain ⟨hstart, hend, -⟩ := (hroom rfl).routed start rfl
      exact ⟨by simp [Body.ntype], hend, hstart⟩
    · change f.header.numExtBlobs + 1 < 2 ^ 16 → _ = f.header.numExtBlobs + 1
      omega
    · rintro rfl
      exact ⟨hslots, fun _ => hspace, by simp⟩

/-- `clone_leaf`, of a leaf that is kept. -/
lemma ends_cloneLeaf {filterTombstones : Bool} {l : Leaf}
    (hkeep : (filterTombstones && l.tombstone) = false) (hsite : Site lrs f cursor)
    (hroom : lrs.isSome → Room lrs f cursor ((Body.leaf l).need spilloverReservation)) :
    Ends (cloneLeaf filterTombstones lrs.isSome cursor l) f
      (fun r f' => ∃ off, r.1 = some off ∧
        Placed lrs f cursor (.leaf l) spilloverReservation off f' r.2)
      (Stuck lrs f cursor ((Body.leaf l).need spilloverReservation)) := by
  unfold cloneLeaf
  rw [hkeep, if_neg Bool.false_ne_true]
  have hpos : 0 < l.bodySize := size_pos (Body.leaf l)
  cases lrs with
  | none =>
    refine Ends.bind ((ends_bump_exact hpos).mono (fun _ _ h => h) ?_) ?_
    · rintro e f' ⟨halloc, rfl, hno⟩
      refine Stuck.of_bump halloc ?_ rfl rfl le_rfl hroom
      rw [show ((Body.leaf l).need spilloverReservation).routing = 0 from rfl, Nat.zero_add]
      exact hno
    · rintro off f' ⟨rfl, rfl, hslots, hspace⟩
      refine ⟨_, rfl, Grows.place (b := .leaf l) hsite.bounded hslots ?_ (fun _ h => nomatch h)
        fun _ => rfl, fun _ => ?_⟩
      · change f.header.spaceUsed + l.bodySize ≤ pageSize
        omega
      · exact ⟨hslots, fun _ => hspace, by simp⟩
  | some start =>
    have hr := hroom rfl
    obtain ⟨hstart, -, hpage⟩ := hr.routed start rfl
    have hslots : f.header.numSlots < maxSlots := hr.slots
    change cursor + l.bodySize + spilloverReservation ≤ pageSize at hpage
    rw [isSome_some, if_pos rfl]
    unfold allocLeafAt
    refine Ends.bind (Q := fun _ f' => f' = ⟨{ f.header with
      numSlots := f.header.numSlots + 1
      gapSpace := (f.header.gapSpace + l.bodySize) % 2 ^ 32 }, f.heap⟩) ?_ ?_
    · refine ends_get_bind ?_
      apply ends_ite
      · exact fun hfull => absurd hslots (not_lt.mpr hfull)
      intro _
      apply ends_ite
      · intro hfull
        omega
      · exact fun _ => rfl
    · rintro _ f' rfl
      exact ⟨cursor, rfl, Grows.placeAt (hsite.cursor rfl) hslots hstart, fun h => nomatch h⟩

/-! ## What the copy does -/

/-- The tree has been copied, if anything was left of it. -/
def Cloned (lrs : Option ℕ) (f : Frame) (leafCursor : ℕ) (u : Option Tree) (r : Option ℕ × ℕ)
    (f' : Frame) : Prop :=
  match u with
  | none => r = (none, leafCursor) ∧ f' = f
  | some u => ∃ t : Art ℕ, t.plain = u ∧ r.1 = some t.note ∧
      Grows lrs f leafCursor f' r.2 t.cells ∧ (lrs = none → Room none f leafCursor u.need)

/-- The trees have been copied. -/
def ClonedAll (lrs : Option ℕ) (f : Frame) (leafCursor : ℕ) (us : List (Byte × Tree))
    (r : List (Byte × ℕ) × ℕ) (f' : Frame) : Prop :=
  ∃ ts : List (Byte × Art ℕ), ts.map (fun c => (c.1, c.2.plain)) = us ∧
    r.1 = ts.map (fun c => (c.1, c.2.note)) ∧
    Grows lrs f leafCursor f' r.2 (ts.flatMap fun c => c.2.cells) ∧
    (us = [] → f' = f ∧ r.2 = leafCursor)

/-- `clone_subtree` copies the tree, wherever it starts. -/
def Clones (filterTombstones : Bool) (t : Tree) : Prop :=
  ∀ (lrs : Option ℕ) (f : Frame) (leafCursor : ℕ), Site lrs f leafCursor →
    (lrs.isSome → ∀ u, Tree.cloned filterTombstones t = some u → Room lrs f leafCursor u.need) →
    Ends (cloneSubtree filterTombstones lrs.isSome leafCursor t) f
      (Cloned lrs f leafCursor (Tree.cloned filterTombstones t))
      (fun e f' => ∃ u, Tree.cloned filterTombstones t = some u ∧
        Stuck lrs f leafCursor u.need e f')

section Room

variable {u : Tree} {us : List (Byte × Tree)} {t : Art ℕ} {byte : Byte}

lemma Tree.reserve_le (u : Tree) : u.reserve ≤ spilloverReservation := by
  cases u <;> simp [reserve]

/-- The first of several trees needs no more than all of them. -/
lemma Tree.need_le_needAll : u.need.Le (needAll ((byte, u) :: us)) := by
  constructor
  case reserved => exact u.reserve_le
  all_goals
    simp only [need, needAll, map_cons, sum_cons]
    omega

lemma Tree.need_le_prefixNode (bytes : List Byte) : u.need.Le (need (.prefixNode () bytes u)) := by
  constructor
  case reserved => exact u.reserve_le
  all_goals
    simp [need, Art.count, Art.internals, Art.leaves, Art.routingBytes, Art.leafBytes, Art.blobs]

lemma Tree.needAll_le_inner (kind : NodeKind) : (needAll us).Le (need (.inner () kind us)) := by
  constructor
  case nodes => simp [need, needAll, Art.count_inner]
  case routing => simp [need, needAll, Art.routingBytes_inner]
  case leaf => simp [need, needAll, Art.leafBytes_inner]
  case reserved => exact le_rfl
  case blobs =>
    simp only [need, needAll, Art.blobs, Art.internals_inner]
    rw [count_cons_of_ne (by simp), count_flatMap]
    exact le_rfl

lemma Tree.exists_pack (h : us ≠ []) : ∃ u, pack us = some u := by
  match us with
  | [] => exact absurd rfl h
  | [(byte, child)] => exact ⟨_, rfl⟩
  | c :: d :: rest => exact ⟨_, pack_cons_cons c d rest⟩

lemma Tree.needAll_le_pack (h : pack us = some u) : (needAll us).Le u.need := by
  match us with
  | [] => cases h
  | [(byte, child)] =>
    cases h
    constructor
    case reserved => exact le_rfl
    all_goals
      simp [need, needAll, Art.count, Art.internals, Art.leaves, Art.routingBytes, Art.leafBytes,
        Art.blobs]
  | c :: d :: rest =>
    rw [pack_cons_cons] at h
    cases h
    exact needAll_le_inner _

lemma length_cells_of_plain (h : t.plain = u) : t.cells.length = u.count := by
  rw [Art.length_cells, ← h, Art.count_plain]

lemma routingSize_of_plain (h : t.plain = u) : routingSize t.cells = u.routingBytes := by
  rw [Art.routingSize_cells, ← h, Art.routingBytes_plain]

lemma leafSize_of_plain (h : t.plain = u) : leafSize t.cells = u.leafBytes := by
  rw [Art.leafSize_cells, ← h, Art.leafBytes_plain]

lemma blobCount_of_plain (h : t.plain = u) : blobCount t.cells = u.blobs := by
  rw [Art.blobCount_cells, ← h, Art.blobs_plain]

/-- Room for several trees, once the first has been copied. -/
lemma Room.rest (h : Room lrs f cursor (Tree.needAll ((byte, u) :: us))) (hplain : t.plain = u)
    (hgrows : Grows lrs f cursor f₁ cursor₁ t.cells) : Room lrs f₁ cursor₁ (Tree.needAll us) := by
  refine h.after hgrows ?_ ?_ ?_ le_rfl
  · rw [length_cells_of_plain hplain]
    simp [Tree.needAll]
  · rw [routingSize_of_plain hplain]
    simp [Tree.needAll]
  · rw [leafSize_of_plain hplain]
    simp [Tree.needAll]

end Room

/-- The children are copied one after the other, each where there is room for the rest. -/
lemma ends_cloneChildren {filterTombstones : Bool} {children : List (Byte × Tree)}
    (hchildren : ∀ c ∈ children, Clones filterTombstones c.2) (hsite : Site lrs f cursor)
    (hroom : lrs.isSome → Tree.clonedAll filterTombstones children ≠ [] →
      Room lrs f cursor (Tree.needAll (Tree.clonedAll filterTombstones children))) :
    Ends (cloneChildren filterTombstones lrs.isSome cursor children) f
      (ClonedAll lrs f cursor (Tree.clonedAll filterTombstones children))
      (fun e f' => Tree.clonedAll filterTombstones children ≠ [] ∧
        Stuck lrs f cursor (Tree.needAll (Tree.clonedAll filterTombstones children)) e f') := by
  induction children generalizing f cursor with
  | nil =>
    rw [Tree.clonedAll_nil]
    exact ⟨[], rfl, rfl, Grows.nil _ _ _, fun _ => ⟨rfl, rfl⟩⟩
  | cons c rest ih =>
    obtain ⟨byte, child⟩ := c
    rw [forall_mem_cons] at hchildren
    rw [Tree.clonedAll_cons] at hroom ⊢
    unfold cloneChildren
    refine Ends.bind ((hchildren.1 lrs f cursor hsite ?_).mono (fun _ _ h => h) ?_) ?_
    · intro hlrs u hu
      rw [hu] at hroom
      exact (hroom hlrs (cons_ne_nil _ _)).mono Tree.need_le_needAll
    · rintro e f' ⟨u, hu, hstuck⟩
      rw [hu]
      exact ⟨cons_ne_nil _ _, hstuck.mono Tree.need_le_needAll⟩
    rintro ⟨newChild, cursor₁⟩ f₁ hcloned
    cases hu : Tree.cloned filterTombstones child with
    | none =>
      -- nothing of the child is left, and nothing was written for it
      rw [hu] at hcloned hroom
      obtain ⟨hr, rfl⟩ := hcloned
      cases hr
      refine Ends.bind (ih hchildren.2 hsite hroom) ?_
      rintro ⟨survivors, cursor₂⟩ f₂ hrest
      exact hrest
    | some u =>
      rw [hu] at hcloned hroom
      obtain ⟨t, hplain, hr, hgrows, -⟩ := hcloned
      simp only at hr
      subst hr
      refine Ends.bind ((ih hchildren.2 (hsite.grows hgrows) fun hlrs _ =>
        (hroom hlrs (cons_ne_nil _ _)).rest hplain hgrows).mono (fun _ _ h => h) ?_) ?_
      · rintro e f' ⟨-, hstuck⟩
        refine ⟨cons_ne_nil _ _, hstuck.after hgrows (fun hr => ?_) ?_⟩
        · obtain rfl := hstuck.1
          exact hr.rest hplain hgrows
        · rw [blobCount_of_plain hplain]
          simp [Tree.needAll]
      · rintro ⟨survivors, cursor₂⟩ f₂ ⟨ts, hplains, hnotes, hgrows', -⟩
        simp only at hnotes
        subst hnotes
        refine ⟨(byte, t) :: ts, ?_, rfl, ?_, fun h => nomatch h⟩
        · rw [map_cons, hplains, hplain]
          rfl
        · exact (hgrows.trans hgrows').perm perm_append_comm

/-- A node is put on top of the copies of its children.  Its offset is only known then, so its
tree is given for any. -/
lemma ends_top {u : Tree} {s : ℕ → Art ℕ} (hcells : ∀ off, (s off).cells = (off, b) :: new)
    (hnote : ∀ off, (s off).note = off) (hplain : ∀ off, (s off).plain = u)
    (hsize : size b = b.ntype.size) (hleaf : b.ntype ≠ .leaf) (hblob : b.ntype ≠ .blobNode)
    (hreserve : u.reserve = spilloverReservation) (hsite : Site lrs f cursor)
    (hgrows : Grows lrs f cursor f₁ cursor₁ new)
    (hroom : lrs.isSome → Room lrs f cursor u.need) :
    Ends (placeNode b) f₁ (fun off f₂ => Cloned lrs f cursor (some u) (some off, cursor₁) f₂)
      (Stuck lrs f cursor u.need) := by
  have hneed : b.need spilloverReservation = _ := b.need_of_ne_leaf hleaf
  have hcount : u.count = new.length + 1 := by
    rw [← length_cells_of_plain (hplain 0), hcells, length_cons]
  have hrouting : u.routingBytes = size b + routingSize new := by
    rw [← routingSize_of_plain (hplain 0), hcells, routingSize_cons hleaf]
  have hleaves : u.leafBytes = leafSize new := by
    rw [← leafSize_of_plain (hplain 0), hcells, leafSize_cons hleaf]
  have hblobs : u.blobs = blobCount [(0, b)] + blobCount new := by
    rw [← blobCount_of_plain (hplain 0), hcells, ← singleton_append, blobCount_append]
  have hafter : ∀ {l : Option ℕ} {c c₁ : ℕ}, Grows l f c f₁ c₁ new → Room l f c u.need →
      Room l f₁ c₁ (b.need spilloverReservation) := by
    intro l c c₁ hg hr
    rw [hneed]
    refine hr.after hg ?_ ?_ ?_ hreserve.ge
    · exact hcount.ge
    · exact (Nat.add_comm _ _).trans_le hrouting.ge
    · exact hleaves.ge
  refine (ends_placeNode_room (hsite.grows hgrows).bounded hsize hleaf hblob fun hlrs =>
    hafter hgrows (hroom hlrs)).mono ?_ ?_
  · rintro off f₂ ⟨hplaced, hfits⟩
    refine ⟨s off, hplain off, ?_, ?_, ?_⟩
    · rw [hnote]
    · rw [hcells]
      exact hgrows.trans hplaced
    · rintro rfl
      have hr := hfits rfl
      rw [hneed] at hr
      have hslots := hr.slots
      have hspace := hr.legacy rfl
      have hused := hgrows.used
      rw [hgrows.slots] at hslots
      simp only [isSome_none, Bool.false_eq_true, if_false] at hused
      simp only at hslots hspace
      refine ⟨?_, fun _ => ?_, by simp⟩
      · change f.header.numSlots + u.count ≤ maxSlots
        omega
      · change f.header.spaceUsed + u.routingBytes + u.leafBytes + u.reserve ≤ pageSize
        omega
  · intro e f₂ hstuck
    refine hstuck.after hgrows (fun hr => ?_) ?_
    · obtain rfl := hstuck.1
      exact hafter hgrows hr
    · change blobCount new + blobCount [(0, b)] ≤ u.blobs
      omega

lemma writePrefixChain_singleton (byte : Byte) (childOff : ℕ) :
    writePrefixChain [byte] childOff = placeNode (.prefixNode [byte] childOff) := by
  change (placeNode (.prefixNode [byte] childOff) >>= fun off => prefixChainLoop 0 [] off) = _
  exact bind_pure _

/-- The survivors are packed into a node of the smallest kind that holds them. -/
lemma ends_packInnerNode {us : List (Byte × Tree)} {ts : List (Byte × Art ℕ)}
    (hplains : ts.map (fun c => (c.1, c.2.plain)) = us) (hsite : Site lrs f cursor)
    (hgrows : Grows lrs f cursor f₁ cursor₁ (ts.flatMap fun c => c.2.cells))
    (hempty : us = [] → f₁ = f ∧ cursor₁ = cursor)
    (hroom : lrs.isSome → ∀ u, Tree.pack us = some u → Room lrs f cursor u.need) :
    Ends (packInnerNode (ts.map fun c => (c.1, c.2.note))) f₁
      (fun off f₂ => Cloned lrs f cursor (Tree.pack us) (off, cursor₁) f₂)
      (fun e f₂ => ∃ u, Tree.pack us = some u ∧ Stuck lrs f cursor u.need e f₂) := by
  subst hplains
  match ts with
  | [] =>
    obtain ⟨rfl, rfl⟩ := hempty rfl
    exact ⟨rfl, rfl⟩
  | [(byte, t)] =>
    refine ends_map ?_
    rw [writePrefixChain_singleton]
    rw [flatMap_singleton] at hgrows
    exact (ends_top (s := fun off => .prefixNode off [byte] t) (fun _ => rfl) (fun _ => rfl)
      (fun _ => rfl) rfl nofun nofun rfl hsite hgrows
      fun hlrs => hroom hlrs _ rfl).mono (fun _ _ h => h) fun _ _ h => ⟨_, rfl, h⟩
  | c :: d :: rest =>
    refine ends_map ?_
    simp only [map_cons] at hroom ⊢
    rw [Tree.pack_cons_cons] at hroom ⊢
    refine (ends_top (s := fun off => .inner off (Tree.kindFor (c :: d :: rest).length)
      (c :: d :: rest)) (fun off => ?_) (fun _ => rfl) (fun _ => ?_) rfl (by simp [Body.ntype])
      (by simp [Body.ntype]) rfl hsite hgrows fun hlrs => hroom hlrs _ rfl).mono
      (fun _ _ h => h) fun _ _ h => ⟨_, rfl, h⟩
    · rw [Art.cells_inner]
      simp
    · rw [Art.plain, Art.plainAll_eq]
      simp

/-- `clone_subtree` copies any tree. -/
theorem ends_cloneSubtree (filterTombstones : Bool) (t : Tree) : Clones filterTombstones t := by
  induction t using Art.induction with
  | emptyRoot note =>
    intro lrs f cursor hsite hroom
    have hcloned : Tree.cloned filterTombstones (.emptyRoot note) = some (.emptyRoot ()) := by
      cases filterTombstones <;> rfl
    rw [hcloned] at hroom ⊢
    refine Ends.bind ((ends_top (s := .emptyRoot) (fun _ => rfl) (fun _ => rfl) (fun _ => rfl)
      rfl (by simp [Body.ntype]) (by simp [Body.ntype]) rfl hsite (Grows.nil _ _ _)
      fun hlrs => hroom hlrs _ rfl).mono (fun _ _ h => h) fun _ _ h => ⟨_, rfl, h⟩) ?_
    exact fun off f₂ h => h
  | leaf note l =>
    intro lrs f cursor hsite hroom
    unfold cloneSubtree
    cases hkeep : filterTombstones && l.tombstone with
    | true =>
      have hcloned : Tree.cloned filterTombstones (.leaf note l) = none := by
        rw [Bool.and_eq_true] at hkeep
        simp [Tree.cloned, Tree.prune, hkeep]
      rw [hcloned]
      unfold cloneLeaf
      rw [hkeep]
      exact ⟨rfl, rfl⟩
    | false =>
      have hcloned : Tree.cloned filterTombstones (.leaf note l) = some (.leaf () l) := by
        cases filterTombstones with
        | false => rfl
        | true => simpa [Tree.cloned, Tree.prune] using hkeep
      rw [hcloned] at hroom ⊢
      refine (ends_cloneLeaf hkeep hsite fun hlrs => ?_).mono ?_ ?_
      · exact hroom hlrs _ rfl
      · rintro r f' ⟨off, hr, hgrows, hfits⟩
        exact ⟨.leaf off l, rfl, hr, hgrows, hfits⟩
      · exact fun e f' h => ⟨_, rfl, h⟩
  | prefixNode note bytes child ih =>
    intro lrs f cursor hsite hroom
    rw [Tree.cloned_prefixNode] at hroom ⊢
    unfold cloneSubtree
    refine Ends.bind ((ih lrs f cursor hsite fun hlrs u hu => ?_).mono (fun _ _ h => h) ?_) ?_
    · exact (hroom hlrs _ (congrArg _ hu)).mono (Tree.need_le_prefixNode bytes)
    · rintro e f' ⟨u, hu, hstuck⟩
      exact ⟨_, congrArg _ hu, hstuck.mono (Tree.need_le_prefixNode bytes)⟩
    rintro ⟨newChild, cursor₁⟩ f₁ hcloned
    cases hu : Tree.cloned filterTombstones child with
    | none =>
      rw [hu] at hcloned
      obtain ⟨hr, rfl⟩ := hcloned
      cases hr
      exact ⟨rfl, rfl⟩
    | some u =>
      rw [hu] at hcloned hroom
      obtain ⟨t, rfl, hr, hgrows, -⟩ := hcloned
      simp only at hr
      subst hr
      refine Ends.bind ((ends_top (s := fun off => .prefixNode off bytes t) (fun _ => rfl)
        (fun _ => rfl) (fun _ => rfl) rfl (by simp [Body.ntype]) (by simp [Body.ntype]) rfl hsite
        hgrows fun hlrs => hroom hlrs _ rfl).mono (fun _ _ h => h) fun _ _ h => ⟨_, rfl, h⟩) ?_
      exact fun off f₂ h => h
  | inner note kind children ih =>
    intro lrs f cursor hsite hroom
    rw [Tree.cloned_inner] at hroom ⊢
    unfold cloneSubtree
    cases filterTombstones with
    | true =>
      -- the survivors may need another kind of node, or none
      simp only [if_true] at hroom ⊢
      refine Ends.bind ((ends_cloneChildren ih hsite fun hlrs hsome => ?_).mono (fun _ _ h => h)
        ?_) ?_
      · obtain ⟨u, hu⟩ := Tree.exists_pack hsome
        exact (hroom hlrs u hu).mono (Tree.needAll_le_pack hu)
      · rintro e f' ⟨hsome, hstuck⟩
        obtain ⟨u, hu⟩ := Tree.exists_pack hsome
        exact ⟨u, hu, hstuck.mono (Tree.needAll_le_pack hu)⟩
      rintro ⟨survivors, cursor₁⟩ f₁ ⟨ts, hplains, hnotes, hgrows, hempty⟩
      simp only at hnotes
      subst hnotes
      refine Ends.bind (ends_packInnerNode hplains hsite hgrows hempty hroom) ?_
      exact fun off f₂ h => h
    | false =>
      simp only [Bool.false_eq_true, if_false] at hroom ⊢
      refine Ends.bind ((ends_cloneChildren ih hsite fun hlrs _ => ?_).mono (fun _ _ h => h) ?_) ?_
      · exact (hroom hlrs _ rfl).mono (Tree.needAll_le_inner kind)
      · exact fun e f' hstuck => ⟨_, rfl, hstuck.2.mono (Tree.needAll_le_inner kind)⟩
      rintro ⟨survivors, cursor₁⟩ f₁ ⟨ts, hplains, hnotes, hgrows, -⟩
      simp only at hnotes
      subst hnotes
      refine Ends.bind ((ends_top (s := fun off => .inner off kind ts) (fun off => ?_)
        (fun _ => rfl) (fun _ => ?_) rfl (by simp [Body.ntype]) (by simp [Body.ntype]) rfl hsite
        hgrows fun hlrs => hroom hlrs _ rfl).mono (fun _ _ h => h) fun _ _ h => ⟨_, rfl, h⟩) ?_
      · exact Art.cells_inner off kind ts
      · rw [Art.plain, Art.plainAll_eq, hplains]
      · exact fun off f₂ h => h
  | blobNode note bytes guid =>
    intro lrs f cursor hsite hroom
    have hcloned : Tree.cloned filterTombstones (.blobNode note bytes guid) =
        some (.blobNode () bytes guid) := by
      cases filterTombstones <;> rfl
    rw [hcloned] at hroom ⊢
    unfold cloneSubtree
    refine Ends.bind ((ends_cloneBlobNode hsite.bounded fun hlrs => hroom hlrs _ rfl).mono
      (fun _ _ h => h) fun _ _ h => ⟨_, rfl, h⟩) ?_
    rintro off f' ⟨hgrows, hfits⟩
    exact ⟨.blobNode off bytes guid, rfl, rfl, hgrows, hfits⟩

/-! ## A frame that has been built -/

/-- A frame that has grown by the records of a tree holds the tree. -/
lemma Grows.holds {t : Art ℕ} {h : Header} (hgrows : Grows lrs f cursor f₁ cursor₁ t.cells)
    (hpos : 0 < f.header.numSlots) (hbounded : h.Bounded) (hroot : t.note = h.root)
    (hslots : h.numSlots = f₁.header.numSlots)
    (hfree : {n | h.spaceUsed ≤ n} ⊆ (f₁.site lrs cursor₁).free)
    (hrouted : h.routingLen ≠ 0 → Routed h t) : (⟨h, f₁.heap⟩ : Frame).Holds t := by
  have howns := hgrows.cells.owns (Owns.nil _)
  constructor
  case bounded => exact hbounded
  case root => exact hroot
  case owns => exact ⟨howns.held, howns.apart, fun c hc => (howns.used c hc).mono hfree⟩
  case sentinel =>
    refine .inr ⟨fun c hc => ?_, ?_⟩
    · rcases hgrows.cells.within c hc with ⟨d, hd, -⟩ | ⟨hplace, -⟩
      · cases hd
      · exact hplace
    · change t.cells.length < h.numSlots
      rw [hslots, hgrows.slots]
      omega
  case routed => exact hrouted

/-- A frame that has been built counts its blob nodes; there are too few to saturate. -/
lemma Grows.numExtBlobs {t : Art ℕ} (hgrows : Grows lrs f cursor f₁ cursor₁ t.cells)
    (hzero : f.header.numExtBlobs = 0) (hslots : t.count ≤ maxSlots) :
    f₁.header.numExtBlobs = t.blobs := by
  have hext := hgrows.ext
  rw [Art.blobCount_cells, hzero, Nat.zero_add] at hext
  have hle : t.blobs ≤ t.count := count_le_length.trans (Nat.le_add_right _ _)
  exact hext ((hle.trans hslots).trans_lt (by decide))

/-- `make_blob_from_node`. -/
def makeBlobFromNode (t : Tree) (newGuid : Guid) : Except WalkError Frame :=
  match exec (cloneSubtree false false 0 t) (Frame.init newGuid) with
  | (.error e, _) => .error e
  | (.ok (none, _), _) => .error (.nodeCorrupt "preserve mode never returns None")
  | (.ok (some clonedRootOff, _), f) =>
    .ok { f with header := { f.header with root := clonedRootOff } }

/-- What a new frame has room for. -/
def Tree.FitsFrame (u : Tree) : Prop :=
  1 + u.count ≤ maxSlots ∧
    dataAreaStart + 8 + u.routingBytes + u.leafBytes + u.reserve ≤ pageSize

lemma site_init (guid : Guid) : Site none (Frame.init guid) 0 :=
  ⟨(holds_init guid).bounded, fun h => nomatch h⟩

lemma room_init_iff (guid : Guid) (u : Tree) :
    Room none (Frame.init guid) 0 u.need ↔ u.FitsFrame :=
  ⟨fun h => ⟨h.slots, h.legacy rfl⟩, fun h => ⟨h.1, fun _ => h.2, fun _ h => nomatch h⟩⟩

/-- A tree becomes a frame of its own exactly if it fits one. -/
lemma makeBlobFromNode_spec (t : Tree) (guid : Guid) :
    match makeBlobFromNode t guid with
    | .error e => (∃ a, e = .alloc a) ∧ ¬ t.FitsFrame
    | .ok f => t.FitsFrame ∧ ∃ t' : Art ℕ, f.Holds t' ∧ t'.plain = t ∧
        f.header = { Header.init guid with
          numSlots := 1 + t.count
          root := t'.note
          spaceUsed := dataAreaStart + 8 + t.routingBytes + t.leafBytes
          numExtBlobs := t.blobs
          gapSpace := f.header.gapSpace } := by
  have hends := ends_cloneSubtree false t none (Frame.init guid) 0 (site_init guid)
    fun h => nomatch h
  unfold Ends at hends
  unfold makeBlobFromNode
  rw [isSome_none] at hends
  revert hends
  obtain ⟨e | ⟨off, cursor⟩, f⟩ := exec (cloneSubtree false false 0 t) (Frame.init guid)
  · rintro ⟨u, hu, hstuck⟩
    cases hu
    exact ⟨hstuck.2.1, fun hfits => hstuck.2.2.1 ((room_init_iff guid t).mpr hfits)⟩
  · rintro ⟨t', hplain, hoff, hgrows, hroom⟩
    simp only at hoff
    subst hoff
    have hfits := (room_init_iff guid t).mp (hroom rfl)
    have hslots := hgrows.slots
    rw [length_cells_of_plain hplain] at hslots
    have hused := hgrows.used
    rw [routingSize_of_plain hplain, leafSize_of_plain hplain] at hused
    have hlen : f.header.routingLen = 0 := by
      rcases hgrows.routing with h | ⟨h, -⟩
      · exact h
      · exact h
    have hext : f.header.numExtBlobs = t.blobs := by
      rw [← hplain, Art.blobs_plain]
      refine hgrows.numExtBlobs rfl ?_
      rw [← Art.count_plain, hplain]
      exact (Nat.le_add_left _ _).trans hfits.1
    refine ⟨hfits, t', ?_, hplain, ?_⟩
    · refine hgrows.holds ?_ ((hgrows.bounded (holds_init guid).bounded).withRoot _) rfl rfl ?_ ?_
      · exact Nat.one_pos
      · exact subset_rfl
      · exact fun h => absurd hlen h
    · have hheader := Header.eq_of_kept hgrows.kept
      rw [hslots, hused, hlen, hext] at hheader
      rw [hheader]
      rfl

end Holt.Engine
