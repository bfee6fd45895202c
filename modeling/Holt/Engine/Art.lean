import Holt.Engine.SearchKey
import Holt.Lib.SortedAssoc
import Holt.Store.ManifestLog
import Holt.Tree.KeyListing

/-!
# Adaptive radix trees

The nodes of one blob: leaves that hold their whole key, prefix nodes that skip bytes every key
below shares, inner nodes of four widths that branch on one byte, and blob nodes where the tree
goes on in another blob.  `Art α` is such a tree with an `α` on every node.  With byte offsets it
is what a frame's bytes say (`Art ℕ`); with nothing it is what they mean (`Tree`).

The children of an inner node stand in the order of their bytes; which arrays hold them is the
business of its width.
-/

namespace Holt.Engine

open List
open Store (Guid)

/-- `PREFIX_MAX_INLINE`: the bytes a prefix node has room for. -/
def prefixMaxInline : ℕ := 112

/-- `BLOB_MAX_INLINE`: the bytes a blob node has room for. -/
def blobMaxInline : ℕ := 104

/-- `leaf_body_size`: the header, the key and the value, rounded up to eight bytes. -/
def leafBodySize (keyLen valueLen : ℕ) : ℕ := (16 + keyLen + valueLen + 7) / 8 * 8

/-- A leaf: the stored key with its terminator, the value, the sequence number of the write, the
tombstone mark, and the key's fingerprint (`0` for none). -/
structure Leaf where
  key : List Byte
  value : Value
  seq : ℕ
  tombstone : Bool
  keyFp : Byte
deriving DecidableEq

/-- `Leaf::live`: the leaf that a write of the key makes. -/
def Leaf.fresh (key : Key) (value : Value) (seq : ℕ) : Leaf :=
  ⟨SearchKey.full key, value, seq, false, SearchKey.fingerprint key⟩

/-- The bytes of a leaf. -/
def Leaf.bodySize (l : Leaf) : ℕ := leafBodySize l.key.length l.value.length

/-- A leaf that may stand below `path`: its key goes through it and is a whole stored key of a
length the header can hold, and a fingerprint it has is its key's. -/
structure Leaf.Stored (path : List Byte) (l : Leaf) : Prop where
  under : path <+: l.key
  whole : ∃ key, l.key = SearchKey.full key ∧
    (l.keyFp = 0 ∨ l.keyFp = SearchKey.fingerprint key)
  keyLen : l.key.length ≤ 65535
  valueLen : l.value.length ≤ 65535

/-- The four widths of an inner node. -/
inductive NodeKind
  | node4
  | node16
  | node48
  | node256
deriving DecidableEq

namespace NodeKind

/-- How many children a node of this width can have. -/
def capacity : NodeKind → ℕ
  | node4 => 4
  | node16 => 16
  | node48 => 48
  | node256 => 256

/-- `SIZE_BY_TYPE` of the width. -/
def size : NodeKind → ℕ
  | node4 => 16
  | node16 => 56
  | node48 => 360
  | node256 => 520

/-- The width of a node of `n` children after one more. -/
def widened (kind : NodeKind) (n : ℕ) : NodeKind :=
  if n < kind.capacity then kind
  else match kind with
    | node4 => node16
    | node16 => node48
    | node48 => node256
    | node256 => node256

end NodeKind

/-- A tree with an annotation on every node. -/
inductive Art (α : Type) where
  | emptyRoot (note : α)
  | leaf (note : α) (l : Leaf)
  | prefixNode (note : α) (bytes : List Byte) (child : Art α)
  | inner (note : α) (kind : NodeKind) (children : List (Byte × Art α))
  | blobNode (note : α) (bytes : List Byte) (guid : Guid)

/-- A tree without annotations. -/
abbrev Tree := Art Unit

namespace Art

variable {α : Type}

/-! ## Induction -/

section Induction

variable {motive : Art α → Prop} (emptyRoot : ∀ note, motive (.emptyRoot note))
  (leaf : ∀ note l, motive (.leaf note l))
  (prefixNode : ∀ note bytes child, motive child → motive (.prefixNode note bytes child))
  (inner : ∀ note kind children, (∀ c ∈ children, motive c.2) →
    motive (.inner note kind children))
  (blobNode : ∀ note bytes guid, motive (.blobNode note bytes guid))

include emptyRoot leaf prefixNode inner blobNode

set_option linter.unusedSectionVars false in
mutual

/-- Induction with a hypothesis for every child of an inner node. -/
@[elab_as_elim, induction_eliminator]
theorem induction : ∀ t : Art α, motive t
  | .emptyRoot note => emptyRoot note
  | .leaf note l => leaf note l
  | .prefixNode note bytes child => prefixNode note bytes child (induction child)
  | .inner note kind children => inner note kind children (inductionAll children)
  | .blobNode note bytes guid => blobNode note bytes guid

theorem inductionAll : ∀ (children : List (Byte × Art α)), ∀ c ∈ children, motive c.2
  | [], _, hc => absurd hc List.not_mem_nil
  | (_, child) :: _, _, .head _ => induction child
  | _ :: rest, c, .tail _ hc => inductionAll rest c hc

end

end Induction

/-! ## What a tree holds -/

/-- The annotation of the root. -/
def note : Art α → α
  | .emptyRoot note => note
  | .leaf note _ => note
  | .prefixNode note _ _ => note
  | .inner note _ _ => note
  | .blobNode note _ _ => note

mutual

/-- The tree without its annotations. -/
def plain : Art α → Tree
  | .emptyRoot _ => .emptyRoot ()
  | .leaf _ l => .leaf () l
  | .prefixNode _ bytes child => .prefixNode () bytes child.plain
  | .inner _ kind children => .inner () kind (plainAll children)
  | .blobNode _ bytes guid => .blobNode () bytes guid

def plainAll : List (Byte × Art α) → List (Byte × Tree)
  | [] => []
  | (byte, child) :: rest => (byte, child.plain) :: plainAll rest

end

mutual

/-- The leaves, tombstoned ones included, in the order of their bytes. -/
def leaves : Art α → List Leaf
  | .emptyRoot _ => []
  | .leaf _ l => [l]
  | .prefixNode _ _ child => child.leaves
  | .inner _ _ children => leavesAll children
  | .blobNode _ _ _ => []

def leavesAll : List (Byte × Art α) → List Leaf
  | [] => []
  | (_, child) :: rest => child.leaves ++ leavesAll rest

end

mutual

/-- The edges to other blobs, each with the bytes a key has gone through there. -/
def edges (path : List Byte) : Art α → List (List Byte × Guid)
  | .emptyRoot _ => []
  | .leaf _ _ => []
  | .prefixNode _ bytes child => child.edges (path ++ bytes)
  | .inner _ _ children => edgesAll path children
  | .blobNode _ bytes guid => [(path ++ bytes, guid)]

def edgesAll (path : List Byte) : List (Byte × Art α) → List (List Byte × Guid)
  | [] => []
  | (byte, child) :: rest => child.edges (path ++ [byte]) ++ edgesAll path rest

end

/-- The live leaves. -/
def live (t : Art α) : List Leaf := t.leaves.filter fun l => !l.tombstone

/-- The number of tombstoned leaves. -/
def tombs (t : Art α) : ℕ := t.leaves.countP fun l => l.tombstone

mutual

/-- Every node lies where the bytes on the way to it say. -/
def Wf (path : List Byte) : Art α → Prop
  | .emptyRoot _ => True
  | .leaf _ l => l.Stored path
  | .prefixNode _ bytes child =>
    bytes ≠ [] ∧ bytes.length ≤ prefixMaxInline ∧ child.Wf (path ++ bytes)
  | .inner _ kind children =>
    children.length ≤ kind.capacity ∧ SortedAssoc.Increasing children ∧
      WfAll path children
  | .blobNode _ bytes _ => bytes.length ≤ blobMaxInline

def WfAll (path : List Byte) : List (Byte × Art α) → Prop
  | [] => True
  | (byte, child) :: rest => child.Wf (path ++ [byte]) ∧ WfAll path rest

end

variable {path : List Byte} {children : List (Byte × Art α)}

@[simp] lemma plainAll_eq : plainAll children = children.map fun c => (c.1, c.2.plain) := by
  induction children with
  | nil => rfl
  | cons c rest ih => rw [plainAll, ih, map_cons]

@[simp] lemma leavesAll_eq : leavesAll children = children.flatMap fun c => c.2.leaves := by
  induction children with
  | nil => rfl
  | cons c rest ih => rw [leavesAll, ih, flatMap_cons]

@[simp] lemma edgesAll_eq :
    edgesAll path children = children.flatMap fun c => c.2.edges (path ++ [c.1]) := by
  induction children with
  | nil => rfl
  | cons c rest ih => rw [edgesAll, ih, flatMap_cons]

@[simp] lemma wfAll_iff : WfAll path children ↔ ∀ c ∈ children, c.2.Wf (path ++ [c.1]) := by
  induction children with
  | nil => simp [WfAll]
  | cons c rest ih => rw [WfAll, ih, forall_mem_cons]

lemma leaves_inner (note : α) (kind : NodeKind) :
    (inner note kind children).leaves = children.flatMap fun c => c.2.leaves := leavesAll_eq

lemma edges_inner (note : α) (kind : NodeKind) :
    (inner note kind children).edges path = children.flatMap fun c => c.2.edges (path ++ [c.1]) :=
  edgesAll_eq

@[simp] lemma leaves_plain (t : Art α) : t.plain.leaves = t.leaves := by
  induction t with
  | emptyRoot | leaf | blobNode => rfl
  | prefixNode note bytes child ih => simp only [plain, leaves, ih]
  | inner note kind children ih =>
    simp only [plain, leaves, plainAll_eq, leavesAll_eq, flatMap_map]
    exact flatMap_congr fun c hc => ih c hc

@[simp] lemma edges_plain (t : Art α) : t.plain.edges path = t.edges path := by
  induction t generalizing path with
  | emptyRoot | leaf | blobNode => rfl
  | prefixNode note bytes child ih => simp only [plain, edges, ih]
  | inner note kind children ih =>
    simp only [plain, edges, plainAll_eq, edgesAll_eq, flatMap_map]
    exact flatMap_congr fun c hc => ih c hc

@[simp] lemma wf_plain (t : Art α) : t.plain.Wf path ↔ t.Wf path := by
  induction t generalizing path with
  | emptyRoot | leaf | blobNode => rfl
  | prefixNode note bytes child ih => simp only [plain, Wf, ih]
  | inner note kind children ih =>
    simp only [plain, Wf, plainAll_eq, wfAll_iff, length_map, SortedAssoc.Increasing,
      List.map_map, List.forall_mem_map, Function.comp_def]
    exact and_congr_right fun _ => and_congr_right fun _ => forall₂_congr fun c hc => ih c hc

@[simp] lemma tombs_plain (t : Art α) : t.plain.tombs = t.tombs := by
  simp [tombs]

@[simp] lemma live_plain (t : Art α) : t.plain.live = t.live := by
  simp [live]

lemma length_le_of_increasing {γ : Type} {entries : List (Byte × γ)}
    (hinc : SortedAssoc.Increasing entries) : entries.length ≤ 256 := by
  have hnodup : ((entries.map Prod.fst).map UInt8.toNat).Nodup :=
    hinc.nodup.map fun _ _ => UInt8.toNat_inj.mp
  have hsub : (entries.map Prod.fst).map UInt8.toNat ⊆ List.range 256 := by
    intro n hn
    obtain ⟨b, -, rfl⟩ := List.mem_map.mp hn
    exact mem_range.mpr b.toNat_lt
  simpa using (hnodup.subperm hsub).length_le

end Art

end Holt.Engine
