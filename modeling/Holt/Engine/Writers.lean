import Holt.Engine.Frame

/-!
# Writing nodes

The helpers that allocate a body, fill it in, or rewrite one in place.  What each of them does to
a frame is a `Changes`: which bodies became which, and that the header only moved where an
allocation moves it.  A helper that fails has at most used up space: `Failed`.
-/

namespace Holt.Engine

open List
open Store (Guid)
open Arena (Cell Owns Rewrites Space Sized size size_pos stop)
open Fallible
open SortedAssoc (find sortByKey)

/-! ## The helpers -/

/-- `write_leaf`. -/
def writeLeaf (key : Key) (value : Value) (seq : ℕ) : FrameM ℕ := do
  let off ← allocLeaf (leafBodySize (SearchKey.len key) value.length)
  writeBody off (.leaf (.fresh key value seq))
  pure off

/-- `alloc_node` and `write_struct_at` of a body that is neither a leaf nor a blob node. -/
def placeNode (b : Body) : FrameM ℕ := do
  let off ← allocNode b.ntype
  writeBody off b
  pure off

/-- The loop of `write_prefix_chain`, from the last bytes to the first. -/
def prefixChainLoop : ℕ → List Byte → ℕ → FrameM ℕ
  | 0, _, nextChild => pure nextChild
  | fuel + 1, remaining, nextChild =>
    if remaining = [] then pure nextChild
    else do
      let chunkStart := remaining.length - min remaining.length prefixMaxInline
      let off ← placeNode (.prefixNode (remaining.drop chunkStart) nextChild)
      prefixChainLoop fuel (remaining.take chunkStart) off

/-- `write_prefix_chain`; without bytes there is nothing to write. -/
def writePrefixChain (bytes : List Byte) (childOff : ℕ) : FrameM ℕ :=
  prefixChainLoop bytes.length bytes childOff

/-- `write_node4_with`. -/
def writeNode4With (children : List (Byte × ℕ)) : FrameM ℕ :=
  placeNode (.inner .node4 (sortByKey children))

/-- `set_prefix_child`. -/
def setPrefixChild (off newChild : ℕ) : FrameM Unit := do
  match (← get).heap off with
  | some (.prefixNode bytes _) => writeBody off (.prefixNode bytes newChild)
  | _ => throw (.nodeCorrupt "read_prefix: body")

/-- `inner_update_child`; a `Node256` has a place for every byte. -/
def innerUpdateChild (off : ℕ) (byte : Byte) (newChild : ℕ) : FrameM Unit := do
  match (← get).heap off with
  | some (.inner kind children) =>
    match kind, find byte children with
    | .node4, none => throw (.nodeCorrupt "inner_update_child: byte not found in Node4")
    | .node16, none => throw (.nodeCorrupt "inner_update_child: byte not found in Node16")
    | .node48, none => throw (.nodeCorrupt "inner_update_child: byte not found in Node48")
    | _, _ => writeBody off (.inner kind (SortedAssoc.set byte newChild children))
  | _ => throw (.nodeCorrupt "inner_update_child: not an inner node")

/-- The arm of `inner_add_child` for a width that is outgrown: a full node is copied to the next
width and abandoned, and the child goes `further`. -/
def addOrGrow (kind wider : NodeKind) (further : ℕ → Byte → ℕ → FrameM ℕ)
    (off : ℕ) (byte : Byte) (newChild : ℕ) : FrameM ℕ := do
  match (← get).heap off with
  | some (.inner _ children) =>
    if children.length < kind.capacity then do
      writeBody off (.inner kind (SortedAssoc.set byte newChild children))
      pure off
    else do
      let grown ← placeNode (.inner wider children)
      noteAbandoned off
      further grown byte newChild
  | _ => throw (.nodeCorrupt "inner_add_child: not an inner node")

/-- The `Node256` arm of `inner_add_child`. -/
def addToNode256 (off : ℕ) (byte : Byte) (newChild : ℕ) : FrameM ℕ := do
  match (← get).heap off with
  | some (.inner _ children) =>
    if (find byte children).isSome then
      throw (.nodeCorrupt "inner_add_child: byte already present on Node256")
    else do
      writeBody off (.inner .node256 (SortedAssoc.set byte newChild children))
      pure off
  | _ => throw (.nodeCorrupt "inner_add_child: not an inner node")

/-- The `Node48` arm of `inner_add_child`; `node48_insert` looks for the byte first. -/
def addToNode48 (off : ℕ) (byte : Byte) (newChild : ℕ) : FrameM ℕ := do
  match (← get).heap off with
  | some (.inner _ children) =>
    if children.length < NodeKind.node48.capacity ∧ (find byte children).isSome then
      throw (.nodeCorrupt "node48_insert: byte already present")
    else addOrGrow .node48 .node256 addToNode256 off byte newChild
  | _ => throw (.nodeCorrupt "inner_add_child: not an inner node")

/-- `inner_add_child`. -/
def innerAddChild : NodeKind → ℕ → Byte → ℕ → FrameM ℕ
  | .node4 => addOrGrow .node4 .node16 (addOrGrow .node16 .node48 addToNode48)
  | .node16 => addOrGrow .node16 .node48 addToNode48
  | .node48 => addToNode48
  | .node256 => addToNode256

/-! ## Changes of a frame -/

/-- The header without what an insert moves. -/
def Header.fixed (h : Header) : Header :=
  { h with numSlots := 0, spaceUsed := 0, deadBytes := 0, gapSpace := 0, tombstoneLeafCnt := 0,
           routingLen := 0 }

/-- The bodies `old` have become `new`, `d` tombstones have gone, and the header has moved as
allocations move it. -/
structure Changes (d : ℕ) (f f' : Frame) (old new : List (Cell Body)) : Prop where
  cells : Rewrites Body.ntype Placeable f.space f'.space old new
  fixed : f'.header.fixed = f.header.fixed
  tombs : f'.header.tombstoneLeafCnt = f.header.tombstoneLeafCnt - d
  bounded : f.header.Bounded → f'.header.Bounded
  routing : f'.header.routingLen = 0 ∨
    f'.header.routingLen = f.header.routingLen ∧ f'.header.spaceUsed = f.header.spaceUsed

/-- An allocation has failed; space may have been used up. -/
def Failed (f : Frame) (e : WalkError) (f' : Frame) : Prop :=
  (∃ a, e = .alloc a) ∧ Changes 0 f f' [] []

variable {d d' : ℕ} {f f₁ f₂ : Frame} {old mid new rest : List (Cell Body)} {c : Cell Body}
  {b b' : Body} {e : WalkError} {off : ℕ}

namespace Changes

lemma refl (h : Owns f.space old) : Changes 0 f f old old where
  cells := Rewrites.refl h
  fixed := rfl
  tombs := rfl
  bounded := id
  routing := .inr ⟨rfl, rfl⟩

lemma nil (f : Frame) : Changes 0 f f [] [] := refl (Owns.nil _)

lemma trans (h : Changes d f f₁ old mid) (h' : Changes d' f₁ f₂ mid new) :
    Changes (d + d') f f₂ old new where
  cells := h.cells.trans h'.cells
  fixed := h'.fixed.trans h.fixed
  tombs := by rw [h'.tombs, h.tombs, Nat.sub_sub]
  bounded := h'.bounded ∘ h.bounded
  routing := by
    rcases h'.routing with h' | ⟨hlen', hused'⟩
    · exact .inl h'
    rcases h.routing with h | ⟨hlen, hused⟩
    · exact .inl (hlen'.trans h)
    · exact .inr ⟨hlen'.trans hlen, hused'.trans hused⟩

lemma trans_zero (h : Changes 0 f f₁ old mid) (h' : Changes d f₁ f₂ mid new) :
    Changes d f f₂ old new := Nat.zero_add d ▸ h.trans h'

variable {new' : List (Cell Body)}

variable (h : Changes d f f₁ old new)
include h

lemma perm {old' : List (Cell Body)} (ho : old.Perm old') (hn : new.Perm new') :
    Changes d f f₁ old' new' :=
  { h with cells := h.cells.perm ho hn }

lemma frame (hown : Owns f.space (old ++ rest)) :
    Changes d f f₁ (old ++ rest) (new ++ rest) :=
  { h with cells := h.cells.frame hown }

lemma frame_left (hown : Owns f.space (rest ++ old)) :
    Changes d f f₁ (rest ++ old) (rest ++ new) :=
  { h with cells := h.cells.frame_left hown }

lemma frame_cons (hown : Owns f.space (c :: old)) :
    Changes d f f₁ (c :: old) (c :: new) :=
  { h with cells := h.cells.frame_cons hown }

lemma owns (hown : Owns f.space old) : Owns f₁.space new :=
  h.cells.owns hown

lemma drop (hown : Owns f.space old) (hs : new'.Sublist new) :
    Changes d f f₁ old new' :=
  { h with cells := h.cells.trans (Rewrites.drop (h.owns hown) hs) }

omit h

/-- New bodies beside those there were, some of which are forgotten. -/
lemma beside (h : Changes d f f₁ [] new) (hown : Owns f.space old)
    {old' : List (Cell Body)} (hs : old'.Sublist old) : Changes d f f₁ old (new ++ old') :=
  (h.frame hown).drop hown ((append_sublist_append_left _).mpr hs)

lemma more (h : Changes d f f₁ [] new) (h' : Changes d' f₁ f₂ [] new') :
    Changes (d + d') f f₂ [] (new' ++ new) :=
  h.trans (h'.frame (h.owns (Owns.nil _)))

lemma overwrite (f : Frame) (hle : size b' ≤ size b) (htype : b'.ntype = b.ntype) :
    Changes 0 f { f with heap := Arena.write f.heap off b' } [(off, b)] [(off, b')] where
  cells := Rewrites.overwrite f.space hle htype
  fixed := rfl
  tombs := rfl
  bounded := id
  routing := .inr ⟨rfl, rfl⟩

lemma dead (h : Owns f.space old) (n : ℕ) :
    Changes 0 f { f with header := { f.header with deadBytes := n } } old old where
  cells := Rewrites.refl h
  fixed := rfl
  tombs := rfl
  bounded := fun hb => { hb with }
  routing := .inr ⟨rfl, rfl⟩

lemma entombed (h : Owns f.space old) (d : ℕ) :
    Changes d f { f with header := { f.header with
      tombstoneLeafCnt := f.header.tombstoneLeafCnt - d } } old old where
  cells := Rewrites.refl h
  fixed := rfl
  tombs := rfl
  bounded := fun hb => { hb with }
  routing := .inr ⟨rfl, rfl⟩

end Changes

lemma Header.Bounded.withRoot {h : Header} (hb : h.Bounded) (root : ℕ) :
    ({ h with root := root } : Header).Bounded :=
  { hb with }

variable {t : Art ℕ}

/-- A rewrite keeps the sentinel of an empty frame, or leaves none. -/
lemma Frame.Holds.sentinel_of_rewrites {t' : Art ℕ} (h : f.Holds t)
    (hr : Rewrites Body.ntype Placeable f.space f₁.space t.cells t'.cells)
    (hsentinel : t = .emptyRoot dataAreaStart →
      t' = t ∨ ∀ c ∈ t'.cells, c.2.ntype ≠ .emptyRoot) : t' = .emptyRoot dataAreaStart ∨
      (∀ c ∈ t'.cells, Placeable c.1) ∧ t'.cells.length < f₁.header.numSlots := by
  rcases h.sentinel with rfl | ⟨hplace, hlt⟩
  · refine (hsentinel rfl).imp id fun hnone => ?_
    have hplace : ∀ c ∈ t'.cells, Placeable c.1 := by
      intro c hc'
      rcases hr.within c hc' with ⟨e, he, -, -, htag⟩ | ⟨hok, -⟩
      · obtain rfl := mem_singleton.mp he
        exact absurd htag (hnone c hc')
      · exact hok
    refine ⟨hplace, ?_⟩
    have hfresh : Arena.offsets t'.cells \ Arena.offsets (Art.emptyRoot dataAreaStart).cells =
        Arena.offsets t'.cells := by
      rw [Finset.sdiff_eq_self_iff_disjoint, Finset.disjoint_right]
      intro n hn hn'
      obtain ⟨c, hc', rfl⟩ := Arena.mem_offsets.mp hn'
      have hlow := (hplace c hc').1
      obtain ⟨e, he, hoff⟩ := Arena.mem_offsets.mp hn
      obtain rfl := mem_singleton.mp he
      exact absurd (hoff ▸ hlow) nofun
    have hslots := hr.slots
    rw [hfresh, Arena.card_offsets hr.apart] at hslots
    have hpos := h.bounded.slots_pos
    change t'.cells.length + f.header.numSlots ≤ f₁.header.numSlots at hslots
    omega
  · refine .inr ⟨fun c hc' => ?_, ?_⟩
    · rcases hr.within c hc' with ⟨e, he, hoff, -, -⟩ | ⟨hok, -⟩
      · exact hoff ▸ hplace e he
      · exact hok
    · have hlength := hr.length_le
      change t'.cells.length + f.header.numSlots ≤ t.cells.length + f₁.header.numSlots at hlength
      omega

/-- A frame whose tree has been changed holds the new tree, once it is the root's. -/
lemma Frame.Holds.changed {t' : Art ℕ} (h : f.Holds t) (hc : Changes d f f₁ t.cells t'.cells)
    (hsentinel : t = .emptyRoot dataAreaStart →
      t' = t ∨ ∀ c ∈ t'.cells, c.2.ntype ≠ .emptyRoot) :
    ({ f₁ with header := { f₁.header with root := t'.note } } : Frame).Holds t' := by
  constructor
  case bounded => exact (hc.bounded h.bounded).withRoot _
  case root => rfl
  case owns => exact hc.owns h.owns
  case sentinel => exact h.sentinel_of_rewrites hc.cells hsentinel
  case routed =>
    intro hlen
    obtain ⟨hsame, hused⟩ := hc.routing.resolve_left hlen
    have hrouted := h.routed (hsame ▸ hlen)
    have hoff : f₁.header.fixed.routingOff = f.header.fixed.routingOff :=
      congrArg Header.routingOff hc.fixed
    have hstart : f₁.header.fixed.leafRegionStart = f.header.fixed.leafRegionStart :=
      congrArg Header.leafRegionStart hc.fixed
    change f₁.header.routingOff = f.header.routingOff at hoff
    change f₁.header.leafRegionStart = f.header.leafRegionStart at hstart
    -- nothing was allocated, so every body of the new tree stands in place of an old one
    have hplace : ∀ c ∈ t'.cells, ∃ e ∈ t.cells, c.1 = e.1 ∧ size c.2 ≤ size e.2 ∧
        c.2.ntype = e.2.ntype := by
      intro c hc'
      refine (hc.cells.within c hc').resolve_right fun hfresh => ?_
      have hn := hfresh.2 c.1 le_rfl (Nat.lt_add_of_pos_right (size_pos c.2))
      exact hn.2 (hused.trans_le hn.1)
    constructor
    case region =>
      have hregion := hrouted.region
      simp only [Header.routingRegion, hsame, hoff, hstart] at hregion ⊢
      exact hregion
    case leaves =>
      intro c hc' hleaf
      obtain ⟨e, he, heq, -, htag⟩ := hplace c hc'
      change f₁.header.leafRegionStart ≤ c.1
      rw [hstart, heq]
      exact hrouted.leaves e he (htag ▸ hleaf)
    case others =>
      intro c hc' hother
      obtain ⟨e, he, heq, hle, htag⟩ := hplace c hc'
      have hbounds := hrouted.others e he (htag ▸ hother)
      change f₁.header.routingOff ≤ c.1 ∧ stop c ≤ f₁.header.routingOff + f₁.header.routingLen
      unfold Arena.stop at *
      omega

/-- A frame in which an allocation failed holds the tree it held. -/
lemma Frame.Holds.failed (h : f.Holds t) (hc : Changes 0 f f₁ [] []) : f₁.Holds t := by
  have hchanged := h.changed (hc.frame h.owns) fun _ => .inl rfl
  have hroot : f₁.header.root = t.note :=
    (congrArg Header.root hc.fixed).trans h.root.symm
  rw [← hroot] at hchanged
  exact hchanged

lemma Failed.after (h : Changes 0 f f₁ [] new) (h' : Failed f₁ e f₂) : Failed f e f₂ :=
  ⟨h'.1, (h.drop (Owns.nil _) (nil_sublist _)).trans_zero h'.2⟩

/-! ## What the helpers do -/

variable {E : WalkError → Frame → Prop}

lemma ends_writeBody (hle : size b' ≤ size b) (htype : b'.ntype = b.ntype) :
    Ends (writeBody off b') f (fun _ f' => Changes 0 f f' [(off, b)] [(off, b')]) E :=
  Changes.overwrite f hle htype

lemma ends_noteAbandoned (hown : Owns f.space old) :
    Ends (noteAbandoned off) f (fun _ f' => Changes 0 f f' old old) E := Changes.dead hown _

/-- `bump` succeeds exactly when there is room. -/
lemma ends_bump_exact {need reserved : ℕ} (hneed : 0 < need) :
    Ends (bump need reserved) f
      (fun off f' => off = f.header.spaceUsed ∧
        f' = ⟨{ f.header with
          numSlots := f.header.numSlots + 1
          spaceUsed := f.header.spaceUsed + need
          gapSpace := (f.header.gapSpace + need) % 2 ^ 32
          routingLen := 0 }, f.heap⟩ ∧
        f.header.numSlots < maxSlots ∧ f.header.spaceUsed + need + reserved ≤ pageSize)
      (fun e f' => (∃ a, e = .alloc a) ∧ f' = f ∧
        ¬ (f.header.numSlots < maxSlots ∧ f.header.spaceUsed + need + reserved ≤ pageSize)) := by
  unfold bump
  refine ends_get_bind ?_
  apply ends_ite
  · exact fun hslots => ends_throw ⟨⟨_, rfl⟩, rfl, fun h => absurd h.1 (not_lt.mpr hslots)⟩
  intro hslots
  apply ends_ite
  · exact fun hroom => ends_throw ⟨⟨_, rfl⟩, rfl, fun h => by omega⟩
  intro hroom
  exact ⟨rfl, rfl, not_le.mp hslots, by omega⟩

/-- A body is written behind the space that is used. -/
lemma ends_bump {reserved : ℕ} (hf : f.header.Bounded) :
    Ends (do let off ← bump (size b) reserved; writeBody off b; pure off) f
      (fun off f' => Changes 0 f f' [] [(off, b)]) (Failed f) := by
  refine Ends.bind ((ends_bump_exact (size_pos b)).mono (fun _ _ h => h) ?_) ?_
  · rintro e f' ⟨halloc, rfl, -⟩
    exact ⟨halloc, Changes.nil _⟩
  · rintro off f' ⟨rfl, rfl, hslots, hroom⟩
    constructor
    case cells =>
      apply Rewrites.place
      · exact ⟨hf.low, hf.aligned⟩
      · intro n hn
        exact (Nat.le_add_right _ _).trans hn
      · intro n hlo hhi
        exact ⟨hlo, not_le.mpr hhi⟩
    case fixed => rfl
    case tombs => rfl
    case bounded =>
      intro hb
      have := hb.high
      constructor
      · exact hb.aligned.add b.dvd_size
      · exact hb.low.trans (Nat.le_add_right _ _)
      · change f.header.spaceUsed + size b ≤ pageSize
        omega
      · exact Nat.succ_pos _
      · exact hslots
    case routing => exact .inl rfl

/-- `placeNode` places its body. -/
lemma ends_placeNode (hf : f.header.Bounded) (hsize : size b = b.ntype.size) :
    Ends (placeNode b) f (fun off f' => Changes 0 f f' [] [(off, b)]) (Failed f) := by
  have h := @ends_bump f b spilloverReservation hf
  rw [hsize] at h
  exact h

lemma ends_writeLeaf (hf : f.header.Bounded) {key : Key} {value : Value} {seq : ℕ} :
    Ends (writeLeaf key value seq) f
      (fun off f' => Changes 0 f f' [] [(off, .leaf (.fresh key value seq))]) (Failed f) := by
  have h := @ends_bump f (.leaf (.fresh key value seq)) spilloverReservation hf
  have hsize : size (Body.leaf (.fresh key value seq)) =
      leafBodySize (SearchKey.len key) value.length := by
    rw [← SearchKey.length_full]
    rfl
  rw [hsize] at h
  exact h

/-- `setPrefixChild` redirects the prefix node it finds. -/
lemma ends_setPrefixChild {bytes : List Byte} {child child' : ℕ}
    (hheld : f.heap off = some (.prefixNode bytes child)) : Ends (setPrefixChild off child') f
      (fun _ f' => Changes 0 f f' [(off, .prefixNode bytes child)]
        [(off, .prefixNode bytes child')])
      E := by
  unfold setPrefixChild
  refine ends_get_bind ?_
  rw [hheld]
  exact ends_writeBody (le_refl _) rfl

section Inner

variable {kind wider : NodeKind} {children : List (Byte × ℕ)} {byte : Byte} {child : ℕ}

/-- `innerUpdateChild` redirects a child that is there. -/
lemma ends_innerUpdateChild {old : ℕ} {E : WalkError → Frame → Prop}
    (hheld : f.heap off = some (.inner kind children)) (hfind : find byte children = some old) :
    Ends (innerUpdateChild off byte child) f
      (fun _ f' => Changes 0 f f' [(off, .inner kind children)]
        [(off, .inner kind (SortedAssoc.set byte child children))]) E := by
  unfold innerUpdateChild
  refine ends_get_bind ?_
  rw [hheld]
  simp only [hfind]
  cases kind <;> exact ends_writeBody (le_refl _) rfl

/-- What `inner_add_child` does to a node without the byte: the child is there afterwards, in a
node that may be a wider one. -/
def Adds (add : ℕ → Byte → ℕ → FrameM ℕ) (kind kind' : NodeKind)
    (children : List (Byte × ℕ)) : Prop :=
  ∀ f off byte child, f.header.Bounded → Owns f.space [(off, .inner kind children)] →
    find byte children = none →
    Ends (add off byte child) f
      (fun off' f' => Changes 0 f f' [(off, .inner kind children)]
        [(off', .inner kind' (SortedAssoc.set byte child children))]) (Failed f)

lemma adds_node256 : Adds addToNode256 .node256 .node256 children := by
  intro f off byte child hf hown hfind
  unfold addToNode256
  have hheld : f.heap off = some (.inner _ children) := hown.held _ mem_cons_self
  refine ends_get_bind ?_
  rw [hheld]
  simp only [hfind, Option.isSome_none, Bool.false_eq_true, if_false]
  exact Changes.overwrite _ (le_refl _) rfl

/-- A node with room takes the child; a full one is copied to the next width first. -/
lemma adds_addOrGrow {further : ℕ → Byte → ℕ → FrameM ℕ}
    (hfurther : kind.capacity ≤ children.length → Adds further wider wider children) :
    Adds (addOrGrow kind wider further) kind
      (if children.length < kind.capacity then kind else wider) children := by
  intro f off byte child hf hown hfind
  unfold addOrGrow
  have hheld : f.heap off = some (.inner _ children) := hown.held _ mem_cons_self
  refine ends_get_bind ?_
  rw [hheld]
  by_cases hroom : children.length < kind.capacity
  · simp only [if_pos hroom]
    exact Changes.overwrite _ (le_refl _) rfl
  simp only [if_neg hroom]
  refine Ends.bind (ends_placeNode hf rfl) fun grown f₁ hplace => ?_
  have hgrown : Owns f₁.space [(grown, Body.inner wider children)] := hplace.owns (Owns.nil _)
  refine Ends.bind (ends_noteAbandoned hgrown) fun _ f₂ hdead => ?_
  refine (hfurther (not_lt.mp hroom) _ grown byte child (hdead.bounded (hplace.bounded hf))
    (hdead.owns hgrown) hfind).mono (fun off' f' hadd => ?_) fun e f' hfail => ?_
  · have hcopied : Changes 0 f f₁ [(off, .inner kind children)] [(grown, .inner wider children)] :=
      hplace.beside hown (nil_sublist _)
    exact (hcopied.trans_zero hdead).trans_zero hadd
  · exact hfail.after (hplace.trans_zero hdead)

lemma adds_node48 :
    Adds addToNode48 .node48 (NodeKind.node48.widened children.length) children := by
  intro f off byte child hf hown hfind
  unfold addToNode48
  have hheld : f.heap off = some (.inner _ children) := hown.held _ mem_cons_self
  refine ends_get_bind ?_
  rw [hheld]
  simp only [hfind, Option.isSome_none, Bool.false_eq_true, and_false, if_false]
  exact adds_addOrGrow (fun _ => adds_node256) f off byte child hf hown hfind

lemma adds_node16 (hlen : children.length ≤ NodeKind.node16.capacity) :
    Adds (addOrGrow .node16 .node48 addToNode48) .node16
      (NodeKind.node16.widened children.length) children := by
  refine adds_addOrGrow fun _ => ?_
  have h : Adds _ _ _ children := adds_node48
  rwa [NodeKind.widened, if_pos (hlen.trans_lt (by decide))] at h

/-- `inner_add_child`. -/
lemma adds_innerAddChild (kind : NodeKind) (hlen : children.length ≤ kind.capacity) :
    Adds (innerAddChild kind) kind (kind.widened children.length) children := by
  cases kind with
  | node4 =>
    refine adds_addOrGrow fun _ => ?_
    have h : Adds _ _ _ children := adds_node16 (hlen.trans (by decide))
    rwa [NodeKind.widened, if_pos (hlen.trans_lt (by decide))] at h
  | node16 => exact adds_node16 hlen
  | node48 => exact adds_node48
  | node256 =>
    have h : NodeKind.node256.widened children.length = .node256 := by
      unfold NodeKind.widened
      split_ifs <;> rfl
    rw [h]
    exact adds_node256

end Inner

end Holt.Engine
