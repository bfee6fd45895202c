import Holt.Engine.Frame

/-!
# Inserting into a tree

What one insert does to the tree of a blob, before any byte is allocated.  An insert goes down by
the bytes of its key and ends in one of four ways: it makes a new tree, it leaves the tree alone
because its condition fails, it crosses into another blob, or it is refused because one stored
key would be a prefix of another.
-/

namespace Holt.Engine

open Store (Guid)
open CommonPrefix (agree)
open SortedAssoc (find sortByKey Increasing)

/-- The arguments of an insert. -/
structure Put where
  key : Key
  value : Value
  seq : ℕ
  condition : InsertCondition
deriving DecidableEq

namespace Put

/-- The leaf an insert writes. -/
def leaf (p : Put) : Leaf := .fresh p.key p.value p.seq

/-- `matches!(condition, InsertCondition::IfVersion(_))`. -/
def guarded (p : Put) : Bool :=
  match p.condition with
  | .ifVersion _ => true
  | _ => false

/-- Whether the condition fails on the leaf of the key. -/
def rejects (p : Put) (l : Leaf) : Bool :=
  if l.tombstone then p.guarded
  else match p.condition with
    | .always => false
    | .ifVersion expected => l.seq ≠ expected
    | .ifAbsent => true

end Put

/-- How an insert ends. -/
inductive Outcome
  | crossing (guid : Guid) (depth : ℕ)
  | kept
  | made (t : Tree)

/-- The outcome below a node, seen from the node. -/
def Outcome.map (g : Tree → Tree) : Outcome → Outcome
  | crossing guid depth => crossing guid depth
  | kept => kept
  | made t => made (g t)

namespace Tree

/-- `write_prefix_chain`: prefix nodes for `remaining`, as many bytes as fit in each. -/
def chainLoop : ℕ → List Byte → Tree → Tree
  | 0, _, t => t
  | fuel + 1, remaining, t =>
    if remaining = [] then t
    else
      let chunkStart := remaining.length - min remaining.length prefixMaxInline
      chainLoop fuel (remaining.take chunkStart) (.prefixNode () (remaining.drop chunkStart) t)

def chain (bytes : List Byte) (t : Tree) : Tree := chainLoop bytes.length bytes t

/-- Two subtrees that part after the bytes `shared`. -/
def fork (shared : List Byte) (byte : Byte) (t : Tree) (byte' : Byte) (t' : Tree) : Tree :=
  chain shared (.inner () .node4 (sortByKey [(byte, t), (byte', t')]))

/-- `insert_into_leaf`. -/
def insertLeaf (p : Put) (depth : ℕ) (l : Leaf) : Except WalkError Outcome :=
  if SearchKey.eqSlice p.key l.key then
    if p.rejects l then .ok .kept else .ok (.made (.leaf () p.leaf))
  else
    let suffix := l.key.drop depth
    let common := SearchKey.commonPrefixWithSlice p.key depth suffix
    if common = suffix.length ∨ common = SearchKey.remainingLen p.key depth then
      .error (.notYetImplemented
        "walker::insert_into_leaf: one key is a strict prefix of the other")
    else if p.guarded then .ok .kept
    else .ok (.made (fork (suffix.take common) (suffix.getD common 0) (.leaf () l)
      ((SearchKey.byteAt p.key (depth + common)).getD 0) (.leaf () p.leaf)))

/-- `insert_into_prefix_step` when the key leaves the prefix after `common` bytes. -/
def splitPrefix (p : Put) (depth : ℕ) (bytes : List Byte) (child : Tree) :
    Except WalkError Outcome :=
  let common := SearchKey.commonPrefixWithSlice p.key depth bytes
  if depth + common ≥ SearchKey.len p.key then
    .error (.notYetImplemented "walker::insert_into_prefix: key terminates inside a prefix")
  else if p.guarded then .ok .kept
  else .ok (.made (fork (bytes.take common) (bytes.getD common 0)
    (chain (bytes.drop (common + 1)) child)
    ((SearchKey.byteAt p.key (depth + common)).getD 0) (.leaf () p.leaf)))

/-- `blob_node_insert_step`. -/
def insertBlobNode (p : Put) (depth : ℕ) (bytes : List Byte) (guid : Guid) :
    Except WalkError Outcome :=
  let common := SearchKey.commonPrefixWithSlice p.key depth bytes
  if common = bytes.length then .ok (.crossing guid (depth + bytes.length))
  else match SearchKey.byteAt p.key (depth + common) with
    | none =>
      .error (.notYetImplemented "blob_node_insert_step: key terminates inside BlobNode prefix")
    | some byte =>
      if p.guarded then .ok .kept
      else .ok (.made (fork (bytes.take common) (bytes.getD common 0)
        (.blobNode () (bytes.drop (common + 1)) guid) byte (.leaf () p.leaf)))

mutual

/-- `insert_at_step` on the tree. -/
def insert (p : Put) (depth : ℕ) : Tree → Except WalkError Outcome
  | .emptyRoot _ => .ok (if p.guarded then .kept else .made (.leaf () p.leaf))
  | .leaf _ l => insertLeaf p depth l
  | .prefixNode _ bytes child =>
    if SearchKey.commonPrefixWithSlice p.key depth bytes = bytes.length then
      (insert p (depth + bytes.length) child).map (Outcome.map (.prefixNode () bytes))
    else splitPrefix p depth bytes child
  | .inner _ kind children =>
    match SearchKey.byteAt p.key depth with
    | none =>
      .error (.notYetImplemented "walker::insert_into_inner: key terminates at an inner node")
    | some byte =>
      match insertChild p (depth + 1) byte children with
      | some outcome =>
        outcome.map (Outcome.map fun t => .inner () kind (SortedAssoc.set byte t children))
      | none =>
        .ok (if p.guarded then .kept
          else .made (.inner () (kind.widened children.length)
            (SortedAssoc.set byte (.leaf () p.leaf) children)))
  | .blobNode _ bytes guid => insertBlobNode p depth bytes guid

def insertChild (p : Put) (depth : ℕ) (byte : Byte) :
    List (Byte × Tree) → Option (Except WalkError Outcome)
  | [] => none
  | (b, child) :: rest =>
    if b = byte then some (insert p depth child) else insertChild p depth byte rest

end

variable {p : Put} {depth : ℕ} {path bytes shared : List Byte} {byte byte' : Byte} {t t' : Tree}

variable {children : List (Byte × Tree)}

@[simp] lemma insertChild_eq :
    insertChild p depth byte children = (find byte children).map (insert p depth) := by
  induction children with
  | nil => rfl
  | cons c rest ih =>
    rw [insertChild, ih, find]
    split_ifs <;> rfl

/-! ## Chains and forks -/

@[simp] lemma leaves_chain : (chain bytes t).leaves = t.leaves := by
  have hloop : ∀ fuel (bytes : List Byte) (t : Tree), (chainLoop fuel bytes t).leaves =
      t.leaves := by
    intro fuel
    induction fuel with
    | zero => exact fun _ _ => rfl
    | succ fuel ih =>
      intro bytes t
      unfold chainLoop
      split_ifs
      · rfl
      · exact ih _ _
  exact hloop _ _ _

lemma leaves_fork : (fork shared byte t byte' t').leaves.Perm (t.leaves ++ t'.leaves) := by
  rw [fork, leaves_chain, Art.leaves, Art.leavesAll_eq]
  exact ((SortedAssoc.perm_pair _ _).flatMap_right _).trans (by simp)

end Tree

end Holt.Engine
