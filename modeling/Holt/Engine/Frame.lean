import Holt.Engine.Art
import Holt.Lib.Arena
import Holt.Lib.Fallible

/-!
# Blob frames

A frame is a page of bytes: a header, a slot table and a data area in which node bodies lie.  A
body is addressed by the offset of its first byte and says itself what it is and how long, so the
model keeps the header and, for each offset, the body found there.  Child fields hold an offset in
sixteen bits, in units of eight bytes from the start of the data area; the model keeps them
decoded.

Bodies are placed at `spaceUsed` and never freed: a node that is no longer wanted is abandoned and
goes away when the frame is rebuilt.  The free lists of the header are only filled by tests and
are left out.

`Frame.tree` is what the frame's bytes say.  `Frame.Holds` says that they lie as they must:
nothing overlaps, and everything is inside the used part of the data area.
-/

namespace Holt.Engine

open List
open Store (Guid)
open Arena (Cell Owns Rewrites Space Sized size size_pos stop)
open Fallible

/-! ## Bodies and headers -/

/-- `PAGE_SIZE`. -/
def pageSize : ℕ := 0x80000

/-- `DATA_AREA_START`. -/
def dataAreaStart : ℕ := 0xB000

/-- `MAX_SLOTS`. -/
def maxSlots : ℕ := 0x2800

/-- `SPILLOVER_RESERVATION`: the end of the data area that only a blob node may use. -/
def spilloverReservation : ℕ := 128

/-- `PAGE_4K`. -/
def page4K : ℕ := 4096

/-- `page_align_up`. -/
def pageAlignUp (off : ℕ) : ℕ := (off + (page4K - 1)) / page4K * page4K

/-- `NodeType`. -/
inductive NodeType
  | leaf
  | prefixNode
  | blobNode
  | inner (kind : NodeKind)
  | emptyRoot
deriving DecidableEq

/-- `size_of_node`; of a leaf only the header. -/
def NodeType.size : NodeType → ℕ
  | leaf => 16
  | prefixNode => 128
  | blobNode => 128
  | inner kind => kind.size
  | emptyRoot => 8

lemma NodeType.size_pos (t : NodeType) : 0 < t.size := by
  cases t with
  | inner kind => cases kind <;> decide
  | _ => decide

lemma NodeType.dvd_size (t : NodeType) : 8 ∣ t.size := by
  cases t with
  | inner kind => cases kind <;> decide
  | _ => decide

/-- What is found at an offset. -/
inductive Body
  | emptyRoot
  | leaf (l : Leaf)
  | prefixNode (bytes : List Byte) (child : ℕ)
  | inner (kind : NodeKind) (children : List (Byte × ℕ))
  | blobNode (bytes : List Byte) (guid : Guid)
deriving DecidableEq

namespace Body

def ntype : Body → NodeType
  | emptyRoot => .emptyRoot
  | leaf _ => .leaf
  | prefixNode _ _ => .prefixNode
  | inner kind _ => .inner kind
  | blobNode _ _ => .blobNode

/-- The length of the body, as `body_at_offset` finds it. -/
def byteLen : Body → ℕ
  | emptyRoot => NodeType.emptyRoot.size
  | leaf l => l.bodySize
  | prefixNode _ _ => NodeType.prefixNode.size
  | inner kind _ => (NodeType.inner kind).size
  | blobNode _ _ => NodeType.blobNode.size

lemma byteLen_pos (b : Body) : 0 < b.byteLen := by
  cases b with
  | emptyRoot => exact NodeType.size_pos .emptyRoot
  | leaf l =>
    simp only [byteLen, Leaf.bodySize, leafBodySize]
    omega
  | prefixNode bytes child => exact NodeType.size_pos .prefixNode
  | inner kind children => exact NodeType.size_pos (.inner kind)
  | blobNode bytes guid => exact NodeType.size_pos .blobNode

instance : Sized Body where
  size := byteLen
  size_pos := byteLen_pos

lemma dvd_size (b : Body) : 8 ∣ size b := by
  cases b with
  | emptyRoot => exact NodeType.dvd_size .emptyRoot
  | leaf l => exact Dvd.intro_left _ rfl
  | prefixNode bytes child => exact NodeType.dvd_size .prefixNode
  | inner kind children => exact NodeType.dvd_size (.inner kind)
  | blobNode bytes guid => exact NodeType.dvd_size .blobNode

end Body

/-- `BlobHeader`, with the root as an offset. -/
structure Header where
  numSlots : ℕ
  root : ℕ
  spaceUsed : ℕ
  numExtBlobs : ℕ
  compactTimes : ℕ
  deadBytes : ℕ
  gapSpace : ℕ
  tombstoneLeafCnt : ℕ
  createdEpoch : ℕ
  epochHighWater : ℕ
  blobGuid : Guid
  routingOff : ℕ
  routingLen : ℕ
  leafRegionStart : ℕ
  routingUnfit : ℕ
deriving DecidableEq

/-- `RoutingRegion`. -/
structure RoutingRegion where
  off : ℕ
  leafRegionStart : ℕ
deriving DecidableEq

/-- `BlobHeader::routing_region`. -/
def Header.routingRegion (h : Header) : Option RoutingRegion :=
  if h.routingLen = 0 then none
  else if h.routingOff < dataAreaStart ∨ h.routingOff ≥ h.leafRegionStart ∨
      h.leafRegionStart > pageSize ∨ h.routingOff + h.routingLen > h.leafRegionStart then none
  else some ⟨h.routingOff, h.leafRegionStart⟩

/-- A frame: its header and the body found at each offset. -/
structure Frame where
  header : Header
  heap : ℕ → Option Body

/-- `AllocError`. -/
inductive AllocError
  | outOfSlots
  | outOfSpace (need avail : ℕ)
deriving DecidableEq

/-- The errors of the walkers once they are inside a frame. -/
inductive WalkError
  | alloc (e : AllocError)
  | notYetImplemented (what : String)
  | nodeCorrupt (what : String)
deriving DecidableEq

/-- Programs on a frame. -/
abbrev FrameM := Prog Frame WalkError

/-! ## Allocation -/

/-- The bump branch of `alloc_node_inner` and `alloc_leaf`, of which the last `reserved` bytes
are kept; any allocation gives up the routed layout. -/
def bump (need reserved : ℕ) : FrameM ℕ := do
  let f ← get
  if f.header.numSlots ≥ maxSlots then throw (.alloc .outOfSlots)
  else if pageSize - f.header.spaceUsed - reserved < need then
    throw (.alloc (.outOfSpace need (pageSize - f.header.spaceUsed - reserved)))
  else do
    set { f with header := { f.header with
      numSlots := f.header.numSlots + 1
      spaceUsed := f.header.spaceUsed + need
      gapSpace := (f.header.gapSpace + need) % 2 ^ 32
      routingLen := 0 } }
    pure f.header.spaceUsed

/-- `alloc_node`, for every type but `Blob`. -/
def allocNode (ntype : NodeType) : FrameM ℕ := bump ntype.size spilloverReservation

/-- `alloc_node(NodeType::Blob)`: it may use the reserved bytes, and it is counted. -/
def allocBlobNode : FrameM ℕ := do
  let off ← bump NodeType.blobNode.size 0
  modify fun f => { f with header := { f.header with
    numExtBlobs := min (f.header.numExtBlobs + 1) (2 ^ 16 - 1) } }
  pure off

/-- `alloc_leaf`. -/
def allocLeaf (total : ℕ) : FrameM ℕ := bump total spilloverReservation

/-- `write_struct_at` and the other body writes: the bytes of `b` at `off`, over what was there. -/
def writeBody (off : ℕ) (b : Body) : FrameM Unit :=
  modify fun f => { f with heap := Arena.write f.heap off b }

/-- `note_abandoned`. -/
def noteAbandoned (off : ℕ) : FrameM Unit :=
  modify fun f => { f with header := { f.header with
    deadBytes := min (f.header.deadBytes + (f.heap off).elim 0 size) (2 ^ 32 - 1) } }

/-- The header of a frame with an empty tree. -/
def Header.init (guid : Guid) : Header where
  numSlots := 1
  root := dataAreaStart
  spaceUsed := dataAreaStart + 8
  numExtBlobs := 0
  compactTimes := 0
  deadBytes := 0
  gapSpace := 8
  tombstoneLeafCnt := 0
  createdEpoch := 0
  epochHighWater := 0
  blobGuid := guid
  routingOff := 0
  routingLen := 0
  leafRegionStart := 0
  routingUnfit := 0

/-- `BlobFrame::init`: the sentinel of the empty tree is the first body. -/
def Frame.init (guid : Guid) : Frame where
  header := .init guid
  heap := Arena.write (fun _ => none) dataAreaStart .emptyRoot

/-! ## Reading a frame -/

/-- The tree at an offset.  A chain of nodes that is no tree runs out of `fuel`. -/
def resolve (heap : ℕ → Option Body) : ℕ → ℕ → Option (Art ℕ)
  | 0, _ => none
  | fuel + 1, off =>
    match heap off with
    | none => none
    | some .emptyRoot => some (.emptyRoot off)
    | some (.leaf l) => some (.leaf off l)
    | some (.prefixNode bytes child) => (resolve heap fuel child).map (.prefixNode off bytes)
    | some (.inner kind children) =>
      (children.mapM fun c => (resolve heap fuel c.2).map (c.1, ·)).map (.inner off kind)
    | some (.blobNode bytes guid) => some (.blobNode off bytes guid)

/-- The tree of a frame, with the offsets of its nodes. -/
def Frame.placed (f : Frame) : Option (Art ℕ) := resolve f.heap f.header.numSlots f.header.root

/-- The tree of a frame. -/
def Frame.tree (f : Frame) : Option Tree := f.placed.map Art.plain

namespace Art

mutual

/-- The bodies of a tree, each where it lies. -/
def cells : Art ℕ → List (Cell Body)
  | .emptyRoot off => [(off, .emptyRoot)]
  | .leaf off l => [(off, .leaf l)]
  | .prefixNode off bytes child => (off, .prefixNode bytes child.note) :: child.cells
  | .inner off kind children =>
    (off, .inner kind (children.map fun c => (c.1, c.2.note))) :: cellsAll children
  | .blobNode off bytes guid => [(off, .blobNode bytes guid)]

def cellsAll : List (Byte × Art ℕ) → List (Cell Body)
  | [] => []
  | (_, child) :: rest => child.cells ++ cellsAll rest

end

@[simp] lemma cellsAll_eq {children : List (Byte × Art ℕ)} :
    cellsAll children = children.flatMap fun c => c.2.cells := by
  induction children with
  | nil => rfl
  | cons c rest ih => rw [cellsAll, ih, flatMap_cons]

lemma cells_inner (off : ℕ) (kind : NodeKind) (children : List (Byte × Art ℕ)) :
    (inner off kind children).cells =
      (off, .inner kind (children.map fun c => (c.1, c.2.note))) ::
        children.flatMap fun c => c.2.cells := by
  rw [cells, cellsAll_eq]

end Art

/-- Bodies that are found where the tree says are resolved to the tree. -/
theorem resolve_cells {heap : ℕ → Option Body} (t : Art ℕ)
    (hheld : ∀ c ∈ t.cells, heap c.1 = some c.2) {fuel : ℕ} (hfuel : t.cells.length ≤ fuel) :
    resolve heap fuel t.note = some t := by
  induction t generalizing fuel with
  | emptyRoot off | leaf off l | blobNode off bytes guid =>
    obtain ⟨n, rfl⟩ : ∃ n, fuel = n + 1 := ⟨fuel - 1, (Nat.sub_add_cancel hfuel).symm⟩
    have hroot := hheld _ mem_cons_self
    change resolve heap (n + 1) off = _
    simp only [resolve, hroot]
  | prefixNode off bytes child ih =>
    simp only [Art.cells, length_cons] at hfuel
    obtain ⟨n, rfl⟩ : ∃ n, fuel = n + 1 := ⟨fuel - 1, by omega⟩
    have hroot := hheld _ mem_cons_self
    have hchild := @ih (forall_mem_cons.mp hheld).2 n (by omega)
    change resolve heap (n + 1) off = _
    simp only [resolve, hroot, hchild, Option.map_some]
  | inner off kind children ih =>
    simp only [Art.cells, length_cons, Art.cellsAll_eq] at hfuel
    obtain ⟨n, rfl⟩ : ∃ n, fuel = n + 1 := ⟨fuel - 1, by omega⟩
    have hroot := hheld _ mem_cons_self
    have hall : ∀ c ∈ children, resolve heap n c.2.note = some c.2 := by
      intro c hc
      refine ih c hc (fun d hd => hheld d ?_) ?_
      · exact mem_cons_of_mem _ (Art.cellsAll_eq ▸ mem_flatMap.mpr ⟨c, hc, hd⟩)
      · have hle : c.2.cells.length ≤ (children.flatMap fun c => c.2.cells).length := by
          rw [flatMap_def]
          exact (sublist_flatten_of_mem
            (List.mem_map_of_mem (f := fun c => c.2.cells) hc)).length_le
        omega
    have hmap : (children.map fun c => (c.1, c.2.note)).mapM
        (fun c => (resolve heap n c.2).map (c.1, ·)) = some children := by
      clear hfuel hheld hroot ih
      induction children with
      | nil => rfl
      | cons c rest ih =>
        rw [forall_mem_cons] at hall
        simp [mapM_cons, hall.1, ih hall.2]
    change resolve heap (n + 1) off = _
    simp only [resolve, hroot, hmap, Option.map_some]

/-! ## Frames that lie as they must -/

/-- The space of a frame: its bodies, and everything from `spaceUsed` on free. -/
def Frame.space (f : Frame) : Space Body where
  heap := f.heap
  free := {n | f.header.spaceUsed ≤ n}
  slots := f.header.numSlots

/-- The bounds of the header's counters. -/
structure Header.Bounded (h : Header) : Prop where
  aligned : 8 ∣ h.spaceUsed
  low : dataAreaStart + 8 ≤ h.spaceUsed
  high : h.spaceUsed ≤ pageSize
  slots_pos : 0 < h.numSlots
  slots_le : h.numSlots ≤ maxSlots

/-- An offset where a body may be placed. -/
def Placeable (off : ℕ) : Prop := dataAreaStart + 8 ≤ off ∧ 8 ∣ off

/-- The routed layout: leaves from `leafRegionStart` on, all other nodes in the routing region. -/
structure Routed (h : Header) (t : Art ℕ) : Prop where
  region : h.routingRegion = some ⟨h.routingOff, h.leafRegionStart⟩
  leaves : ∀ c ∈ t.cells, c.2.ntype = .leaf → h.leafRegionStart ≤ c.1
  others : ∀ c ∈ t.cells, c.2.ntype ≠ .leaf →
    h.routingOff ≤ c.1 ∧ stop c ≤ h.routingOff + h.routingLen

/-- The frame's bytes hold the tree. -/
structure Frame.Holds (f : Frame) (t : Art ℕ) : Prop where
  bounded : f.header.Bounded
  root : t.note = f.header.root
  owns : Owns f.space t.cells
  /-- The sentinel of `init` is only ever the whole tree, and it has a slot of its own. -/
  sentinel : t = .emptyRoot dataAreaStart ∨
    (∀ c ∈ t.cells, Placeable c.1) ∧ t.cells.length < f.header.numSlots
  routed : f.header.routingLen ≠ 0 → Routed f.header t

/-- A frame of the keys that go through `path`. -/
def Frame.WellFormed (f : Frame) (path : List Byte) : Prop := ∃ t, f.Holds t ∧ t.Wf path

namespace Frame.Holds

variable {f : Frame} {t : Art ℕ}

lemma length_cells_le (h : f.Holds t) : t.cells.length ≤ f.header.numSlots := by
  rcases h.sentinel with rfl | ⟨-, hlt⟩
  · exact h.bounded.slots_pos
  · exact hlt.le

lemma placed (h : f.Holds t) : f.placed = some t := by
  unfold Frame.placed
  rw [← h.root]
  exact resolve_cells t h.owns.held h.length_cells_le

lemma tree (h : f.Holds t) : f.tree = some t.plain := by
  rw [Frame.tree, h.placed, Option.map_some]

end Frame.Holds

/-- A new frame holds the empty tree. -/
lemma holds_init (guid : Guid) : (Frame.init guid).Holds (.emptyRoot dataAreaStart) := by
  constructor
  case bounded =>
    constructor <;> simp [Frame.init, Header.init, dataAreaStart, pageSize, maxSlots]
  case root => rfl
  case owns =>
    constructor
    · intro c hc
      obtain rfl := mem_singleton.mp hc
      exact Arena.write_same (fun _ => none) dataAreaStart Body.emptyRoot
    · exact pairwise_singleton _ _
    · intro c hc n hlo hhi hn
      obtain rfl := mem_singleton.mp hc
      exact absurd hn (not_le.mpr hhi)
  case sentinel => exact .inl rfl
  case routed => exact fun h => absurd rfl h

end Holt.Engine
