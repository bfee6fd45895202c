import Holt.Engine.TreeInsert

/-!
# Pruning a tree

Compaction copies a tree without its tombstoned leaves.  Branches that lose all their leaves go
away; an inner node that keeps one child becomes a prefix node for its byte; the others get the
width their children need.  `Tree.prune` is that copy.  It has the live leaves and the edges of
the tree and lies under the same path.

`routingBudget` is the measurement that compaction makes before it copies, a recursion of its own
that has to foresee every one of these decisions: `routingBudget_eq` says that it does.
-/

namespace Holt.Engine

open List Option
open Store (Guid)
open SortedAssoc (Increasing)

namespace Art

variable {α : Type}

mutual

/-- The types of the nodes that are not leaves. -/
def internals : Art α → List NodeType
  | .emptyRoot _ => [.emptyRoot]
  | .leaf _ _ => []
  | .prefixNode _ _ child => .prefixNode :: child.internals
  | .inner _ kind children => .inner kind :: internalsAll children
  | .blobNode _ _ _ => [.blobNode]

def internalsAll : List (Byte × Art α) → List NodeType
  | [] => []
  | (_, child) :: rest => child.internals ++ internalsAll rest

end

/-- The bytes of the nodes that are not leaves. -/
def routingBytes (t : Art α) : ℕ := (t.internals.map NodeType.size).sum

/-- The bytes of the leaves. -/
def leafBytes (t : Art α) : ℕ := (t.leaves.map Leaf.bodySize).sum

/-- The number of nodes. -/
def count (t : Art α) : ℕ := t.internals.length + t.leaves.length

/-- The number of blob nodes. -/
def blobs (t : Art α) : ℕ := t.internals.count .blobNode

variable {path : List Byte} {children : List (Byte × Art α)}

@[simp] lemma internalsAll_eq :
    internalsAll children = children.flatMap fun c => c.2.internals := by
  induction children with
  | nil => rfl
  | cons c rest ih => rw [internalsAll, ih, flatMap_cons]

lemma internals_inner (note : α) (kind : NodeKind) :
    (inner note kind children).internals =
      .inner kind :: children.flatMap fun c => c.2.internals := by
  rw [internals, internalsAll_eq]

@[simp] lemma internals_plain (t : Art α) : t.plain.internals = t.internals := by
  induction t with
  | emptyRoot | leaf | blobNode => rfl
  | prefixNode note bytes child ih => simp only [plain, internals, ih]
  | inner note kind children ih =>
    rw [internals_inner, plain, internals_inner, plainAll_eq, flatMap_map]
    exact congrArg _ (flatMap_congr fun c hc => ih c hc)

@[simp] lemma count_plain (t : Art α) : t.plain.count = t.count := by
  simp [count]

@[simp] lemma blobs_plain (t : Art α) : t.plain.blobs = t.blobs := by
  simp [blobs]

@[simp] lemma routingBytes_plain (t : Art α) : t.plain.routingBytes = t.routingBytes := by
  simp [routingBytes]

@[simp] lemma leafBytes_plain (t : Art α) : t.plain.leafBytes = t.leafBytes := by
  simp [leafBytes]

lemma routingBytes_inner (note : α) (kind : NodeKind) :
    (inner note kind children).routingBytes =
      kind.size + (children.map fun c => c.2.routingBytes).sum := by
  rw [routingBytes, internals_inner, map_cons, sum_cons, map_flatMap,
    flatMap_def, sum_flatten, List.map_map]
  rfl

lemma leafBytes_inner (note : α) (kind : NodeKind) :
    (inner note kind children).leafBytes = (children.map fun c => c.2.leafBytes).sum := by
  rw [leafBytes, leaves_inner, map_flatMap, flatMap_def, sum_flatten, List.map_map]
  rfl

lemma count_inner (note : α) (kind : NodeKind) :
    (inner note kind children).count = 1 + (children.map fun c => c.2.count).sum := by
  rw [count, internals_inner, leaves_inner, length_cons, length_flatMap,
    length_flatMap, Nat.add_right_comm, ← sum_map_add, Nat.add_comm]
  rfl

end Art

namespace Tree

/-- The width that `pack_inner_node` gives to a number of children. -/
def kindFor (n : ℕ) : NodeKind :=
  if n ≤ 4 then .node4 else if n ≤ 16 then .node16 else if n ≤ 48 then .node48 else .node256

/-- `pack_inner_node` on trees. -/
def pack : List (Byte × Tree) → Option Tree
  | [] => none
  | [(byte, child)] => some (.prefixNode () [byte] child)
  | survivors => some (.inner () (kindFor survivors.length) survivors)

mutual

/-- The filtering `clone_subtree` on trees. -/
def prune : Tree → Option Tree
  | .emptyRoot _ => some (.emptyRoot ())
  | .leaf _ l => if l.tombstone then none else some (.leaf () l)
  | .prefixNode _ bytes child => (prune child).map (.prefixNode () bytes)
  | .inner _ _ children => pack (pruneAll children)
  | .blobNode _ bytes guid => some (.blobNode () bytes guid)

def pruneAll : List (Byte × Tree) → List (Byte × Tree)
  | [] => []
  | (byte, child) :: rest =>
    match prune child with
    | none => pruneAll rest
    | some child' => (byte, child') :: pruneAll rest

end

/-! ## The measurement -/

/-- `packed_inner_size`. -/
def packedInnerSize (survivors : ℕ) : Option ℕ :=
  if survivors = 0 then none
  else if survivors = 1 then some NodeType.prefixNode.size
  else if survivors ≤ 4 then some (NodeType.inner .node4).size
  else if survivors ≤ 16 then some (NodeType.inner .node16).size
  else if survivors ≤ 48 then some (NodeType.inner .node48).size
  else some (NodeType.inner .node256).size

/-- `BudgetNode`. -/
structure BudgetNode where
  routingBytes : ℕ
  leafBytes : ℕ
deriving DecidableEq

mutual

/-- `routing_budget`. -/
def routingBudget : Tree → Option BudgetNode
  | .emptyRoot _ => some ⟨NodeType.emptyRoot.size, 0⟩
  | .leaf _ l => if l.tombstone then none else some ⟨0, l.bodySize⟩
  | .prefixNode _ _ child =>
    (routingBudget child).map fun c => ⟨NodeType.prefixNode.size + c.routingBytes, c.leafBytes⟩
  | .blobNode _ _ _ => some ⟨NodeType.blobNode.size, 0⟩
  | .inner _ _ children => budgetInner 0 0 0 children

/-- The loop of `budget_inner`. -/
def budgetInner (survivors routingBytes leafBytes : ℕ) : List (Byte × Tree) → Option BudgetNode
  | [] => (packedInnerSize survivors).map fun selfSize => ⟨routingBytes + selfSize, leafBytes⟩
  | (_, child) :: rest =>
    match routingBudget child with
    | none => budgetInner survivors routingBytes leafBytes rest
    | some c =>
      budgetInner (survivors + 1) (routingBytes + c.routingBytes) (leafBytes + c.leafBytes) rest

end

/-- `ROUTE_MIN_LEAF_BYTES`. -/
def routeMinLeafBytes : ℕ := 2 * page4K

/-- `routing_geometry`: where the leaves of a routed layout start. -/
def routingGeometry (budget : Option BudgetNode) : Option ℕ :=
  match budget with
  | none => none
  | some b =>
    if b.routingBytes = 0 then none
    else if b.leafBytes < routeMinLeafBytes then none
    else
      let lrs := pageAlignUp (dataAreaStart + NodeType.emptyRoot.size + b.routingBytes)
      if lrs + b.leafBytes + spilloverReservation ≤ pageSize then some lrs else none

/-! ## What pruning keeps -/

variable {t u : Tree} {path : List Byte} {children survivors : List (Byte × Tree)} {byte : Byte}

lemma pruneAll_cons (child : Tree) (rest : List (Byte × Tree)) :
    pruneAll ((byte, child) :: rest) =
      ((prune child).map fun c => (byte, c)).toList ++ pruneAll rest := by
  rw [pruneAll]
  cases prune child <;> rfl

/-- A property of lists that are put together from the children of a node: what each child gives,
the survivors give. -/
lemma flatMap_pruneAll {γ : Type} {g : Byte × Tree → List γ} {g' : Byte × Tree → List γ}
    (h : ∀ c ∈ children, ((prune c.2).map fun t => g (c.1, t)).getD [] = g' c) :
    (pruneAll children).flatMap g = children.flatMap g' := by
  induction children with
  | nil => rfl
  | cons c rest ih =>
    rw [forall_mem_cons] at h
    rw [flatMap_cons, pruneAll_cons, flatMap_append, ih h.2, ← h.1]
    cases prune c.2 <;> simp

lemma pack_cons_cons (c d : Byte × Tree) (rest : List (Byte × Tree)) :
    pack (c :: d :: rest) =
      some (.inner () (kindFor (c :: d :: rest).length) (c :: d :: rest)) := by
  simp [pack]

lemma leaves_pack : ((pack survivors).map Art.leaves).getD [] =
    survivors.flatMap fun c => c.2.leaves := by
  match survivors with
  | [] => rfl
  | [(byte, child)] => simp [pack, Art.leaves]
  | c :: d :: rest => rw [pack_cons_cons, map_some, getD_some, Art.leaves_inner]

lemma edges_pack : ((pack survivors).map (Art.edges path)).getD [] =
    survivors.flatMap fun c => c.2.edges (path ++ [c.1]) := by
  match survivors with
  | [] => rfl
  | [(byte, child)] => simp [pack, Art.edges]
  | c :: d :: rest => rw [pack_cons_cons, map_some, getD_some, Art.edges_inner]

/-- Pruning keeps the live leaves, in their order. -/
lemma leaves_prune (t : Tree) : ((prune t).map Art.leaves).getD [] = t.live := by
  induction t using Art.induction with
  | emptyRoot | blobNode => rfl
  | leaf note l =>
    cases h : l.tombstone <;> simp [prune, Art.live, Art.leaves, h]
  | prefixNode note bytes child ih =>
    rw [prune, Option.map_map]
    exact ih
  | inner note kind children ih =>
    rw [prune, leaves_pack, Art.live, Art.leaves_inner, filter_flatMap]
    exact flatMap_pruneAll ih

/-- Pruning keeps all edges. -/
lemma edges_prune (t : Tree) (path : List Byte) :
    ((prune t).map (Art.edges path)).getD [] = t.edges path := by
  induction t using Art.induction generalizing path with
  | emptyRoot | blobNode => rfl
  | leaf note l => cases h : l.tombstone <;> simp [prune, Art.edges, h]
  | prefixNode note bytes child ih =>
    rw [prune, Option.map_map]
    exact ih _
  | inner note kind children ih =>
    rw [prune, edges_pack, Art.edges_inner]
    exact flatMap_pruneAll fun c hc => ih c hc (path ++ [c.1])

lemma mem_pruneAll {c : Byte × Tree} (hc : c ∈ pruneAll children) :
    ∃ t, (c.1, t) ∈ children ∧ prune t = some c.2 := by
  induction children with
  | nil => cases hc
  | cons d rest ih =>
    rw [pruneAll_cons, mem_append] at hc
    rcases hc with hc | hc
    · cases hd : prune d.2 with
      | none => simp [hd] at hc
      | some d' =>
        simp only [hd, map_some, toList_some, mem_singleton] at hc
        exact ⟨d.2, by rw [hc]; exact mem_cons_self, by rw [hc, hd]⟩
    · obtain ⟨t, ht, hprune⟩ := ih hc
      exact ⟨t, mem_cons_of_mem _ ht, hprune⟩

lemma fst_pruneAll_sublist : ((pruneAll children).map Prod.fst).Sublist
    (children.map Prod.fst) := by
  induction children with
  | nil => exact List.Sublist.refl _
  | cons c rest ih =>
    rw [pruneAll_cons, map_append, map_cons]
    cases prune c.2 with
    | none => exact ih.cons _
    | some c' => exact ih.cons_cons _

lemma length_le_kindFor {n : ℕ} (hn : n ≤ 256) : n ≤ (kindFor n).capacity := by
  unfold kindFor
  split_ifs <;> simp only [NodeKind.capacity] <;> omega

lemma wf_pack (hinc : Increasing survivors)
    (hwf : ∀ c ∈ survivors, c.2.Wf (path ++ [c.1])) (h : pack survivors = some u) : u.Wf path := by
  match survivors with
  | [] => cases h
  | [(byte, child)] =>
    cases h
    exact ⟨by simp, by simp [prefixMaxInline], hwf _ (mem_singleton_self _)⟩
  | c :: d :: rest =>
    cases h
    exact ⟨length_le_kindFor (Art.length_le_of_increasing hinc), hinc, Art.wfAll_iff.mpr hwf⟩

/-- What is left lies as it must. -/
lemma wf_prune (ht : t.Wf path) (h : prune t = some u) : u.Wf path := by
  induction t using Art.induction generalizing path u with
  | emptyRoot note =>
    cases h
    exact trivial
  | leaf note l =>
    rw [prune] at h
    split_ifs at h
    cases h
    exact ht
  | prefixNode note bytes child ih =>
    obtain ⟨child', hchild, rfl⟩ := map_eq_some_iff.mp h
    exact ⟨ht.1, ht.2.1, ih ht.2.2 hchild⟩
  | inner note kind children ih =>
    refine wf_pack (List.Pairwise.sublist fst_pruneAll_sublist ht.2.1) (fun c hc => ?_) h
    obtain ⟨t, hmem, hprune⟩ := mem_pruneAll hc
    exact ih _ hmem (Art.wfAll_iff.mp ht.2.2 _ hmem) hprune
  | blobNode note bytes guid =>
    cases h
    exact ht

/-! ## What pruning costs -/

/-- What a tree takes. -/
def budgetOf (t : Tree) : BudgetNode := ⟨t.routingBytes, t.leafBytes⟩

/-- The measurement of a node is that of the node the survivors are packed into. -/
lemma budgetInner_eq (n r l : ℕ)
    (hchildren : ∀ c ∈ children, routingBudget c.2 = (prune c.2).map budgetOf) :
    budgetInner n r l children =
      (packedInnerSize (n + (pruneAll children).length)).map fun selfSize =>
        ⟨r + ((pruneAll children).map fun c => c.2.routingBytes).sum + selfSize,
          l + ((pruneAll children).map fun c => c.2.leafBytes).sum⟩ := by
  induction children generalizing n r l with
  | nil => rfl
  | cons c rest ih =>
    rw [forall_mem_cons] at hchildren
    rw [budgetInner, hchildren.1, pruneAll_cons]
    cases hc : prune c.2 with
    | none =>
      simp only [map_none, toList_none, nil_append]
      exact ih n r l hchildren.2
    | some c' =>
      simp only [map_some, toList_some, singleton_append, length_cons,
        map_cons, sum_cons, ih _ _ _ hchildren.2, budgetOf]
      congr 1
      · funext selfSize
        congr 1 <;> omega
      · congr 1
        omega

/-- A packed node takes what `packed_inner_size` says. -/
lemma map_budgetOf_pack : (pack survivors).map budgetOf =
    (packedInnerSize survivors.length).map fun selfSize =>
      ⟨(survivors.map fun c => c.2.routingBytes).sum + selfSize,
        (survivors.map fun c => c.2.leafBytes).sum⟩ := by
  match survivors with
  | [] => rfl
  | [(byte, child)] =>
    simp [pack, packedInnerSize, budgetOf, Art.routingBytes, Art.leafBytes, Art.internals,
      Art.leaves, Nat.add_comm]
  | c :: d :: rest =>
    have hsize : packedInnerSize (c :: d :: rest).length =
        some (kindFor (c :: d :: rest).length).size := by
      simp only [packedInnerSize, kindFor, length_cons]
      split_ifs <;> first | rfl | omega
    rw [pack_cons_cons, hsize, map_some, map_some, budgetOf, Art.routingBytes_inner,
      Art.leafBytes_inner, Nat.add_comm]

/-- The measurement foresees the copy. -/
theorem routingBudget_eq (t : Tree) : routingBudget t = (prune t).map budgetOf := by
  induction t using Art.induction with
  | emptyRoot | blobNode => rfl
  | leaf note l =>
    cases h : l.tombstone <;>
      simp [routingBudget, prune, h, budgetOf, Art.routingBytes, Art.leafBytes, Art.internals,
        Art.leaves]
  | prefixNode note bytes child ih =>
    rw [routingBudget, prune, ih, Option.map_map, Option.map_map]
    rfl
  | inner note kind children ih =>
    rw [routingBudget, prune, budgetInner_eq 0 0 0 ih, map_budgetOf_pack]
    simp only [Nat.zero_add]

lemma count_pack (h : pack survivors = some u) :
    u.count = 1 + (survivors.map fun c => c.2.count).sum := by
  match survivors with
  | [] => cases h
  | [(byte, child)] =>
    cases h
    simp only [Art.count, Art.internals, Art.leaves, length_cons, map_cons,
      map_nil, sum_cons, sum_nil]
    omega
  | c :: d :: rest =>
    rw [pack_cons_cons] at h
    cases h
    rw [Art.count_inner]

/-- Pruning adds no nodes. -/
lemma count_prune_le (h : prune t = some u) : u.count ≤ t.count := by
  induction t using Art.induction generalizing u with
  | emptyRoot | blobNode =>
    cases h
    exact le_refl _
  | leaf note l =>
    rw [prune] at h
    split_ifs at h
    cases h
    exact le_refl _
  | prefixNode note bytes child ih =>
    obtain ⟨child', hchild, rfl⟩ := map_eq_some_iff.mp h
    have := ih hchild
    simp only [Art.count, Art.internals, Art.leaves, length_cons] at this ⊢
    omega
  | inner note kind children ih =>
    have hsum : ((pruneAll children).map fun c => c.2.count).sum ≤
        (children.map fun c => c.2.count).sum := by
      clear h
      induction children with
      | nil => exact le_refl _
      | cons c rest ih' =>
        rw [forall_mem_cons] at ih
        have hrest := ih' ih.2
        rw [pruneAll_cons, map_append, sum_append, map_cons, sum_cons]
        cases hc : prune c.2 with
        | none => exact (Nat.zero_add _).trans_le (hrest.trans (Nat.le_add_left _ _))
        | some c' => exact Nat.add_le_add (ih.1 hc) hrest
    rw [count_pack h, Art.count_inner]
    exact Nat.add_le_add_left hsum 1

end Tree

end Holt.Engine
