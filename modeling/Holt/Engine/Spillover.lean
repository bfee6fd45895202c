import Holt.Engine.Compact
import Holt.Engine.Pool

/-!
# Spillover

A frame that is full moves a subtree out to a frame of its own and keeps an edge to it.  Which
subtree goes is a matter of taste (`pick_victim_subtree` looks for one that fills most of a frame
and ends at a `/`); what matters is that it hangs on an edge of the tree, `VictimOf`, because the
edge can then be redirected (`VictimOf.redirect`).

The parent is rewritten and compacted in a copy, so that nothing has changed if any of it fails.
-/

namespace Holt.Engine

open Function List
open Store (Guid)
open Arena (Cell Owns Rewrites Space Sized size size_pos stop)
open Fallible
open SortedAssoc (find)

/-! ## The victim -/

/-- `VictimEdgeKind`. -/
inductive VictimEdgeKind
  | prefixNode
  | inner (kind : NodeKind)
deriving DecidableEq

/-- `Victim`. -/
structure Victim where
  parentOff : ℕ
  kind : VictimEdgeKind
  byte : Byte
  victimOff : ℕ
  viaHeaderRoot : Bool
deriving DecidableEq

/-- `SubtreeFootprint`. -/
structure SubtreeFootprint where
  nodes : ℕ
  bytes : ℕ
deriving DecidableEq

/-- `SubtreeFootprint::saturating_add`. -/
def SubtreeFootprint.saturatingAdd (a b : SubtreeFootprint) : SubtreeFootprint :=
  ⟨min (a.nodes + b.nodes) (2 ^ 32 - 1), min (a.bytes + b.bytes) (2 ^ 32 - 1)⟩

mutual

/-- `subtree_footprint_memo`. -/
def subtreeFootprint : Art ℕ → SubtreeFootprint
  | .emptyRoot _ => ⟨1, NodeType.emptyRoot.size⟩
  | .leaf _ l => ⟨1, l.bodySize⟩
  | .prefixNode _ _ child =>
    SubtreeFootprint.saturatingAdd ⟨1, NodeType.prefixNode.size⟩ (subtreeFootprint child)
  | .inner _ kind children => footprintChildren ⟨1, kind.size⟩ children
  | .blobNode _ _ _ => ⟨1, NodeType.blobNode.size⟩

def footprintChildren (out : SubtreeFootprint) : List (Byte × Art ℕ) → SubtreeFootprint
  | [] => out
  | (_, child) :: rest => footprintChildren (out.saturatingAdd (subtreeFootprint child)) rest

end

/-- `BoundaryQuality`. -/
inductive BoundaryQuality
  | arbitrary
  | pathComponent
deriving DecidableEq

/-- `VictimCandidate`. -/
structure VictimCandidate where
  victim : Victim
  footprint : SubtreeFootprint
  boundary : BoundaryQuality
  boundaryDepth : ℕ
deriving DecidableEq

/-- `spillover_data_capacity`. -/
def spilloverDataCapacity : ℕ := pageSize - dataAreaStart

/-- `spillover_target_child_bytes`. -/
def spilloverTargetChildBytes : ℕ := spilloverDataCapacity * 70 / 100

/-- `spillover_min_child_bytes`. -/
def spilloverMinChildBytes : ℕ := spilloverDataCapacity * 35 / 100

/-- `boundary_quality_for_byte`; the byte is `/`. -/
def boundaryQualityForByte (byte : Byte) : BoundaryQuality :=
  if byte = 47 then .pathComponent else .arbitrary

/-- `boundary_quality_for_prefix`. -/
def boundaryQualityForPrefix (bytes : List Byte) : BoundaryQuality :=
  bytes.getLast?.elim .arbitrary boundaryQualityForByte

/-- `candidate_tie`. -/
def candidateTie (candidate current : VictimCandidate) (candidateScore currentScore : ℕ) : Bool :=
  if candidateScore ≠ currentScore then candidateScore < currentScore
  else if candidate.boundary ≠ current.boundary then candidate.boundary = .pathComponent
  else if candidate.boundaryDepth ≠ current.boundaryDepth then
    candidate.boundaryDepth < current.boundaryDepth
  else candidate.footprint.nodes > current.footprint.nodes

/-- `candidate_tie_in_band`. -/
def candidateTieInBand (candidate current : VictimCandidate) (candidateScore currentScore : ℕ) :
    Bool :=
  if candidate.boundary ≠ current.boundary then candidate.boundary = .pathComponent
  else candidateTie candidate current candidateScore currentScore

/-- `u32::abs_diff`. -/
def absDiff (a b : ℕ) : ℕ := (a - b) + (b - a)

/-- `candidate_is_better`. -/
def candidateIsBetter (candidate current : VictimCandidate) : Bool :=
  let c := candidate.footprint.bytes
  let b := current.footprint.bytes
  let target := spilloverTargetChildBytes
  let low := spilloverMinChildBytes
  let cInBand := decide (low ≤ c ∧ c ≤ target)
  let bInBand := decide (low ≤ b ∧ b ≤ target)
  if cInBand ≠ bInBand then cInBand
  else if cInBand then
    candidateTieInBand candidate current (absDiff c target) (absDiff b target)
  else if c < low ∧ b < low then candidateTie candidate current b c
  else if c > target ∧ b > target then candidateTie candidate current c b
  else candidateTie candidate current (absDiff c target) (absDiff b target)

/-- `visit_child_edge`; `descend` collects the candidates inside the child. -/
def visitChildEdge (victim : Victim) (boundary : BoundaryQuality) (boundaryDepth : ℕ)
    (child : Art ℕ) (descend : Option VictimCandidate → Option VictimCandidate)
    (best : Option VictimCandidate) : Option VictimCandidate :=
  match child with
  | .blobNode _ _ _ => best
  | _ =>
    let footprint := subtreeFootprint child
    let candidate := ⟨victim, footprint, boundary, boundaryDepth⟩
    let best := if best.all (candidateIsBetter candidate) then some candidate else best
    if footprint.bytes > spilloverTargetChildBytes then descend best else best

mutual

/-- `collect_victim_candidates`. -/
def collectVictimCandidates : Art ℕ → ℕ → Option VictimCandidate → Option VictimCandidate
  | .inner off kind children, depth, best => collectInner off kind (depth + 1) children best
  | .prefixNode off bytes child, depth, best =>
    visitChildEdge ⟨off, .prefixNode, 0, child.note, false⟩ (boundaryQualityForPrefix bytes)
      (depth + bytes.length) child (collectVictimCandidates child (depth + bytes.length)) best
  | .leaf _ _, _, best => best
  | .emptyRoot _, _, best => best
  | .blobNode _ _ _, _, best => best

/-- The loops of `collect_victim_candidates` over the children of an inner node. -/
def collectInner (off : ℕ) (kind : NodeKind) (childDepth : ℕ) :
    List (Byte × Art ℕ) → Option VictimCandidate → Option VictimCandidate
  | [], best => best
  | (byte, child) :: rest, best =>
    collectInner off kind childDepth rest
      (visitChildEdge ⟨off, .inner kind, byte, child.note, false⟩ (boundaryQualityForByte byte)
        childDepth child (collectVictimCandidates child childDepth) best)

end

/-- `pick_victim_subtree`. -/
def pickVictimSubtree (t : Art ℕ) : Except WalkError Victim :=
  match collectVictimCandidates t 0 none with
  | none => .error (.notYetImplemented "spillover: no non-Blob subtree to migrate")
  | some candidate => .ok candidate.victim

/-! ## The rewrite -/

mutual

/-- `abandon_subtree`. -/
def abandonSubtree : Art ℕ → FrameM Unit
  | .emptyRoot off => noteAbandoned off
  | .leaf off _ => noteAbandoned off
  | .prefixNode off _ child => do
    abandonSubtree child
    noteAbandoned off
  | .inner off _ children => do
    abandonChildren children
    noteAbandoned off
  | .blobNode off _ _ => noteAbandoned off

def abandonChildren : List (Byte × Art ℕ) → FrameM Unit
  | [] => pure ()
  | (_, child) :: rest => do
    abandonSubtree child
    abandonChildren rest

end

/-- Redirect the edge of the victim. -/
def rewireVictim (victim : Victim) (rootOff bnOff : ℕ) : FrameM Unit :=
  if victim.parentOff = rootOff ∧ victim.viaHeaderRoot then
    modify fun f => { f with header := { f.header with root := bnOff } }
  else match victim.kind with
    | .prefixNode => setPrefixChild victim.parentOff bnOff
    | .inner _ => innerUpdateChild victim.parentOff victim.byte bnOff

/-- The part of `spillover_blob` that works on a copy of the frame: the new child. -/
def prepareSpillover (newGuid : Guid) : FrameM Frame := do
  let f ← get
  match f.placed with
  | none => throw (.nodeCorrupt "ntype_of: undecodable node_type")
  | some t =>
    match pickVictimSubtree t with
    | .error e => throw e
    | .ok victim =>
      match resolve f.heap f.header.numSlots victim.victimOff with
      | none => throw (.nodeCorrupt "clone_subtree: src body resolution failed")
      | some sub =>
        match makeBlobFromNode sub.plain newGuid with
        | .error e => throw e
        | .ok child => do
          if child.header.blobGuid ≠ newGuid then
            throw (.nodeCorrupt "spillover: prepared child self-GUID mismatch")
          abandonSubtree sub
          let bnOff ← cloneBlobNode [] newGuid
          rewireVictim victim f.header.root bnOff
          compactBlob
          pure child

/-- A frame that is held for writing, and the pool. -/
structure Held where
  frame : Frame
  pool : Pool

/-- `spillover_blob`, with the guid that `fresh_blob_guid` gives. -/
def spilloverBlob (seq : ℕ) (newGuid : Guid) : Prog Held WalkError Unit := do
  let s ← get
  match exec (prepareSpillover newGuid) s.frame with
  | (.error e, _) => throw e
  | (.ok child, prepared) => set (⟨prepared, s.pool.installNewBlob newGuid child seq⟩ : Held)

/-! ## The edge of the victim -/

/-- The victim is an edge of the tree, and `sub` hangs on it. -/
inductive VictimOf : Victim → Art ℕ → Art ℕ → Prop
  | atPrefix (off : ℕ) (bytes : List Byte) (sub : Art ℕ) :
      VictimOf ⟨off, .prefixNode, 0, sub.note, false⟩ sub (.prefixNode off bytes sub)
  | atInner (off : ℕ) (kind : NodeKind) {byte : Byte} {sub : Art ℕ}
      {children : List (Byte × Art ℕ)} (hmem : (byte, sub) ∈ children) :
      VictimOf ⟨off, .inner kind, byte, sub.note, false⟩ sub (.inner off kind children)
  | underPrefix (off : ℕ) (bytes : List Byte) {victim : Victim} {sub child : Art ℕ}
      (h : VictimOf victim sub child) : VictimOf victim sub (.prefixNode off bytes child)
  | underInner (off : ℕ) (kind : NodeKind) {victim : Victim} {byte : Byte} {sub child : Art ℕ}
      {children : List (Byte × Art ℕ)} (hmem : (byte, child) ∈ children)
      (h : VictimOf victim sub child) : VictimOf victim sub (.inner off kind children)

/-- The collected candidate is the one there was or an edge of the tree. -/
def Collected (t : Art ℕ) (best : Option VictimCandidate) (c : VictimCandidate) : Prop :=
  best = some c ∨ ∃ sub, VictimOf c.victim sub t

variable {t : Art ℕ} {victim : Victim}

lemma collected_visitChildEdge {child : Art ℕ} {boundary : BoundaryQuality} {depth : ℕ}
    {descend : Option VictimCandidate → Option VictimCandidate} {best : Option VictimCandidate}
    {c : VictimCandidate} (hedge : VictimOf victim child t)
    (hdescend : ∀ best, descend best = some c → Collected t best c)
    (h : visitChildEdge victim boundary depth child descend best = some c) :
    Collected t best c := by
  unfold visitChildEdge at h
  split at h
  · exact .inl h
  · simp only at h
    split_ifs at h with hlarge hbetter hbetter
    · rcases hdescend _ h with hsame | hsub
      · exact .inr ⟨child, Option.some.inj hsame ▸ hedge⟩
      · exact .inr hsub
    · exact hdescend _ h
    · exact .inr ⟨child, Option.some.inj h ▸ hedge⟩
    · exact .inl h

/-- Every candidate is a child of a node of the tree. -/
lemma collected_of_collect (t : Art ℕ) {depth : ℕ} {best : Option VictimCandidate}
    {c : VictimCandidate} (h : collectVictimCandidates t depth best = some c) :
    Collected t best c := by
  induction t generalizing depth best with
  | emptyRoot | leaf | blobNode => exact .inl h
  | prefixNode off bytes child ih =>
    rw [collectVictimCandidates] at h
    refine collected_visitChildEdge (.atPrefix off bytes child) (fun best hbest => ?_) h
    exact (ih hbest).imp id fun ⟨sub, hsub⟩ => ⟨sub, .underPrefix off bytes hsub⟩
  | inner off kind children ih =>
    rw [collectVictimCandidates] at h
    have hloop : ∀ (rest : List (Byte × Art ℕ)) (best : Option VictimCandidate),
        (∀ c ∈ rest, c ∈ children) → collectInner off kind (depth + 1) rest best = some c →
        Collected (.inner off kind children) best c := by
      intro rest
      induction rest with
      | nil => exact fun best _ h => .inl h
      | cons d rest ih' =>
        intro best hsub h
        rw [collectInner] at h
        have hd : d ∈ children := hsub d mem_cons_self
        rcases ih' _ (forall_mem_cons.mp hsub).2 h with hbest | hedge
        · refine collected_visitChildEdge (.atInner off kind hd) (fun best hbest => ?_) hbest
          exact (ih d hd hbest).imp id fun ⟨sub, hsub⟩ => ⟨sub, .underInner off kind hd hsub⟩
        · exact .inr hedge
    exact hloop children best (fun _ hc => hc) h

/-- The victim that is picked is one of the subtrees. -/
lemma victimOf_pick (h : pickVictimSubtree t = .ok victim) : ∃ sub, VictimOf victim sub t := by
  unfold pickVictimSubtree at h
  cases hcollect : collectVictimCandidates t 0 none with
  | none => rw [hcollect] at h; cases h
  | some candidate =>
    rw [hcollect] at h
    obtain rfl := Except.ok.inj h
    exact (collected_of_collect t hcollect).resolve_left fun h => nomatch h

/-- A body whose edge has been redirected. -/
def Redirects (victim : Victim) (newOff : ℕ) (body body' : Body) : Prop :=
  match victim.kind with
  | .prefixNode => ∃ bytes child, body = .prefixNode bytes child ∧
      body' = .prefixNode bytes newOff
  | .inner _ => ∃ kind children old, body = .inner kind children ∧
      find victim.byte children = some old ∧
      body' = .inner kind (SortedAssoc.set victim.byte newOff children)

/-- `t'` is `t` with `new` in place of `sub`. -/
structure Redirected (victim : Victim) (sub new t t' : Art ℕ) (path : List Byte) : Prop where
  note : t'.note = t.note
  cells : ∃ body body' rest, t.cells.Perm ((victim.parentOff, body) :: (sub.cells ++ rest)) ∧
    t'.cells.Perm ((victim.parentOff, body') :: (new.cells ++ rest)) ∧
    Redirects victim new.note body body'
  leaves : ∃ rest, t.leaves.Perm (sub.leaves ++ rest) ∧ t'.leaves.Perm (new.leaves ++ rest)
  edges : ∃ v rest, (t.edges path).Perm (sub.edges v ++ rest) ∧
    (t'.edges path).Perm (new.edges v ++ rest) ∧ sub.Wf v ∧ (new.Wf v → t'.Wf path)

lemma perm_flatMap_middle {γ δ : Type} (g : γ → List δ) (l r : List γ) (c : γ) :
    ((l ++ c :: r).flatMap g).Perm (g c ++ (l ++ r).flatMap g) := by
  rw [flatMap_append, flatMap_append, flatMap_cons]
  exact perm_append_comm_assoc _ _ _

lemma perm_hoist {γ : Type} (x y : γ) (a b c : List γ) :
    (x :: (y :: (a ++ b) ++ c)).Perm (y :: (a ++ (x :: b ++ c))) := by
  refine (List.Perm.swap _ _ _).trans (List.Perm.cons _ ?_)
  change (x :: (a ++ b ++ c)).Perm (a ++ x :: (b ++ c))
  rw [append_assoc]
  exact perm_middle.symm

section Redirect

variable {victim : Victim} {sub new child child' : Art ℕ} {path : List Byte} {off : ℕ}
  {kind : NodeKind} {byte : Byte} {l r : List (Byte × Art ℕ)}

lemma Redirected.underPrefix {bytes : List Byte}
    (h : Redirected victim sub new child child' (path ++ bytes)) (hne : bytes ≠ [])
    (hlen : bytes.length ≤ prefixMaxInline) :
    Redirected victim sub new (.prefixNode off bytes child)
    (.prefixNode off bytes child') path := by
  obtain ⟨hnote, ⟨body, body', rest, hcells, hcells', hredirects⟩, hleaves,
    ⟨v, erest, hedges, hedges', hsub, hwf⟩⟩ := h
  refine ⟨rfl, ⟨body, body', (off, .prefixNode bytes child.note) :: rest, ?_, ?_, hredirects⟩,
    hleaves, ⟨v, erest, hedges, hedges', hsub, fun hnew => ⟨hne, hlen, hwf hnew⟩⟩⟩
  · refine (hcells.cons _).trans ?_
    simpa using perm_hoist _ _ sub.cells rest []
  · rw [Art.cells, hnote]
    refine (hcells'.cons _).trans ?_
    simpa using perm_hoist _ _ new.cells rest []

/-- A node whose child is changed is well formed, if the child is. -/
lemma wf_inner_middle (h : (Art.inner off kind (l ++ (byte, child) :: r)).Wf path)
    (hchild : child'.Wf (path ++ [byte])) :
    (Art.inner off kind (l ++ (byte, child') :: r)).Wf path := by
  obtain ⟨hlen, hinc, hall⟩ := h
  refine ⟨by simpa using hlen, ?_, ?_⟩
  · unfold SortedAssoc.Increasing at hinc ⊢
    simpa using hinc
  · rw [Art.wfAll_iff] at hall ⊢
    intro c hc
    rcases mem_append.mp hc with hc | hc
    · exact hall c (mem_append_left _ hc)
    · rcases mem_cons.mp hc with rfl | hc
      · exact hchild
      · exact hall c (mem_append_right _ (mem_cons_of_mem _ hc))

/-- To redirect in a child is to redirect in the node. -/
lemma Redirected.underInner (h : Redirected victim sub new child child' (path ++ [byte]))
    (ht : (Art.inner off kind (l ++ (byte, child) :: r)).Wf path) :
    Redirected victim sub new (.inner off kind (l ++ (byte, child) :: r))
      (.inner off kind (l ++ (byte, child') :: r)) path := by
  obtain ⟨hnote, ⟨body, body', rest, hcells, hcells', hredirects⟩, ⟨lrest, hleaves, hleaves'⟩,
    ⟨v, erest, hedges, hedges', hsub, hwf⟩⟩ := h
  constructor
  case note => rfl
  case cells =>
    refine ⟨body, body', (off, .inner kind ((l ++ (byte, child) :: r).map fun c =>
      (c.1, c.2.note))) :: rest ++ (l ++ r).flatMap fun c => c.2.cells, ?_, ?_, hredirects⟩
    · rw [Art.cells_inner]
      exact (((perm_flatMap_middle _ l r _).trans (hcells.append_right _)).cons _).trans
        (perm_hoist _ _ _ _ _)
    · rw [Art.cells_inner, show ((l ++ (byte, child') :: r).map fun c => (c.1, c.2.note)) =
        (l ++ (byte, child) :: r).map fun c => (c.1, c.2.note) by simp [hnote]]
      exact (((perm_flatMap_middle _ l r _).trans (hcells'.append_right _)).cons _).trans
        (perm_hoist _ _ _ _ _)
  case leaves =>
    refine ⟨lrest ++ (l ++ r).flatMap fun c => c.2.leaves, ?_, ?_⟩
    · rw [Art.leaves_inner, ← append_assoc]
      exact (perm_flatMap_middle _ l r _).trans (hleaves.append_right _)
    · rw [Art.leaves_inner, ← append_assoc]
      exact (perm_flatMap_middle _ l r _).trans (hleaves'.append_right _)
  case edges =>
    refine ⟨v, erest ++ (l ++ r).flatMap fun c => c.2.edges (path ++ [c.1]), ?_, ?_, hsub,
      fun hnew => wf_inner_middle ht (hwf hnew)⟩
    · rw [Art.edges_inner, ← append_assoc]
      exact (perm_flatMap_middle _ l r _).trans (hedges.append_right _)
    · rw [Art.edges_inner, ← append_assoc]
      exact (perm_flatMap_middle _ l r _).trans (hedges'.append_right _)

lemma redirected_atInner (new : Art ℕ)
    (ht : (Art.inner off kind (l ++ (byte, sub) :: r)).Wf path)
    (hset : ∀ x, SortedAssoc.set byte x (l ++ (byte, sub) :: r) = l ++ (byte, x) :: r) :
    Redirected ⟨off, .inner kind, byte, sub.note, false⟩ sub new
      (.inner off kind (l ++ (byte, sub) :: r)) (.inner off kind (l ++ (byte, new) :: r)) path := by
  have hmem : (byte, sub) ∈ l ++ (byte, sub) :: r :=
    mem_append_right _ mem_cons_self
  constructor
  case note => rfl
  case cells =>
    let children := (l ++ (byte, sub) :: r).map fun c => (c.1, c.2.note)
    refine ⟨.inner kind children, .inner kind (SortedAssoc.set byte new.note children),
      (l ++ r).flatMap fun c => c.2.cells, ?_, ?_, kind, children, sub.note, rfl, ?_, rfl⟩
    · rw [Art.cells_inner]
      exact (perm_flatMap_middle _ l r _).cons _
    · rw [Art.cells_inner, SortedAssoc.set_map, hset]
      exact (perm_flatMap_middle _ l r _).cons _
    · rw [SortedAssoc.find_map, SortedAssoc.find_of_mem ht.2.1 hmem]
      rfl
  case leaves =>
    refine ⟨(l ++ r).flatMap fun c => c.2.leaves, ?_, ?_⟩
    · rw [Art.leaves_inner]
      exact perm_flatMap_middle _ l r _
    · rw [Art.leaves_inner]
      exact perm_flatMap_middle _ l r _
  case edges =>
    refine ⟨path ++ [byte], (l ++ r).flatMap fun c => c.2.edges (path ++ [c.1]), ?_, ?_,
      Art.wfAll_iff.mp ht.2.2 _ hmem, fun hnew => wf_inner_middle ht hnew⟩
    · rw [Art.edges_inner]
      exact perm_flatMap_middle _ l r _
    · rw [Art.edges_inner]
      exact perm_flatMap_middle _ l r _

/-- Any edge can be redirected. -/
theorem VictimOf.redirect {t : Art ℕ} (h : VictimOf victim sub t) (ht : t.Wf path) (new : Art ℕ) :
    ∃ t', Redirected victim sub new t t' path := by
  induction h generalizing path with
  | atPrefix off bytes sub =>
    refine ⟨.prefixNode off bytes new, rfl, ⟨_, _, [], ?_, ?_, bytes, sub.note, rfl, rfl⟩,
      ⟨[], ?_, ?_⟩, ⟨path ++ bytes, [], ?_, ?_, ht.2.2, fun hnew => ⟨ht.1, ht.2.1, hnew⟩⟩⟩
    all_goals
      rw [append_nil]
      exact List.Perm.refl _
  | @atInner off kind byte sub children hmem =>
    obtain ⟨l, r, rfl, -, hset⟩ :=
      SortedAssoc.set_of_find ht.2.1 (SortedAssoc.find_of_mem ht.2.1 hmem)
    exact ⟨_, redirected_atInner new ht hset⟩
  | underPrefix off bytes _ ih =>
    obtain ⟨child', hchild⟩ := ih ht.2.2
    exact ⟨_, hchild.underPrefix ht.1 ht.2.1⟩
  | underInner off kind hmem _ ih =>
    obtain ⟨child', hchild⟩ := ih (Art.wfAll_iff.mp ht.2.2 _ hmem)
    obtain ⟨l, r, rfl⟩ := append_of_mem hmem
    exact ⟨_, hchild.underInner ht⟩

end Redirect

/-! ## What the rewrite does -/

variable {sub : Art ℕ}

lemma VictimOf.victimOff (h : VictimOf victim sub t) : victim.victimOff = sub.note := by
  induction h with
  | atPrefix | atInner => rfl
  | underPrefix _ _ _ ih | underInner _ _ _ _ ih => exact ih

lemma VictimOf.viaHeaderRoot (h : VictimOf victim sub t) : victim.viaHeaderRoot = false := by
  induction h with
  | atPrefix | atInner => rfl
  | underPrefix _ _ _ ih | underInner _ _ _ _ ih => exact ih

variable {f f₁ f₂ f' : Frame} {E : WalkError → Frame → Prop}

/-- Only dead bytes have been counted. -/
def Deadened (f f' : Frame) : Prop :=
  ∃ n, f' = { f with header := { f.header with deadBytes := n } }

lemma Deadened.trans (h : Deadened f f₁) (h' : Deadened f₁ f₂) : Deadened f f₂ := by
  obtain ⟨n, rfl⟩ := h
  obtain ⟨n', rfl⟩ := h'
  exact ⟨n', rfl⟩

lemma ends_noteAbandoned_deadened (off : ℕ) :
    Ends (noteAbandoned off) f (fun _ => Deadened f) E := ⟨_, rfl⟩

lemma ends_abandonSubtree (t : Art ℕ) : Ends (abandonSubtree t) f (fun _ => Deadened f) E := by
  induction t generalizing f with
  | emptyRoot off | leaf off l | blobNode off bytes guid => exact ends_noteAbandoned_deadened off
  | prefixNode off bytes child ih =>
    refine Ends.bind ih fun _ f₁ h => ?_
    exact (ends_noteAbandoned_deadened off).mono (fun _ _ h' => h.trans h') fun _ _ h => h
  | inner off kind children ih =>
    have hall : ∀ f, Ends (abandonChildren children) f (fun _ => Deadened f) E := by
      induction children with
      | nil => exact fun f => ⟨f.header.deadBytes, rfl⟩
      | cons c rest ih' =>
        intro f
        rw [forall_mem_cons] at ih
        refine Ends.bind ih.1 fun _ f₁ h => ?_
        exact (ih' ih.2 f₁).mono (fun _ _ h' => h.trans h') fun _ _ h => h
    refine Ends.bind (hall f) fun _ f₁ h => ?_
    exact (ends_noteAbandoned_deadened off).mono (fun _ _ h' => h.trans h') fun _ _ h => h

/-- The parent of the victim points to the new edge. -/
lemma ends_rewireVictim {rootOff bnOff : ℕ} {body body' : Body}
    (hroot : victim.viaHeaderRoot = false) (hheld : f.heap victim.parentOff = some body)
    (hredirects : Redirects victim bnOff body body') : Ends (rewireVictim victim rootOff bnOff) f
      (fun _ f' => Changes 0 f f' [(victim.parentOff, body)] [(victim.parentOff, body')]) E := by
  unfold rewireVictim
  rw [hroot, if_neg nofun]
  unfold Redirects at hredirects
  cases hkind : victim.kind with
  | prefixNode =>
    rw [hkind] at hredirects
    obtain ⟨bytes, child, rfl, rfl⟩ := hredirects
    exact ends_setPrefixChild hheld
  | inner kind =>
    rw [hkind] at hredirects
    obtain ⟨kind', children, old, rfl, hfind, rfl⟩ := hredirects
    exact ends_innerUpdateChild hheld hfind

/-- A frame whose edge has been redirected to a new blob node. -/
lemma holds_redirected {t' : Art ℕ} {bnOff : ℕ} {guid : Guid} {body body' : Body}
    {rest : List (Cell Body)} (h : f.Holds t) (hne : t ≠ .emptyRoot dataAreaStart)
    (hcells : t.cells.Perm ((victim.parentOff, body) :: (sub.cells ++ rest)))
    (hcells' : t'.cells.Perm ((victim.parentOff, body') :: ((bnOff, .blobNode [] guid) :: rest)))
    (hnote : t'.note = t.note) (hgrows : Grows none f 0 f₁ 0 [(bnOff, .blobNode [] guid)])
    (hchange : Changes 0 f₁ f₂ [(victim.parentOff, body)] [(victim.parentOff, body')]) :
    f₂.Holds t' := by
  have hplaced : Rewrites Body.ntype Placeable f.space f₁.space t.cells
      ((victim.parentOff, body) :: (sub.cells ++ (bnOff, .blobNode [] guid) :: rest)) := by
    refine Rewrites.perm (hgrows.cells.frame h.owns) (List.Perm.refl _) ?_
    refine (hcells.cons _).trans ((List.Perm.swap _ _ _).trans (List.Perm.cons _ ?_))
    exact perm_middle.symm
  have hdropped : Rewrites Body.ntype Placeable f.space f₁.space t.cells
      ((victim.parentOff, body) :: ((bnOff, .blobNode [] guid) :: rest)) :=
    hplaced.trans (Rewrites.drop (hplaced.owns h.owns)
      ((sublist_append_right _ _).cons_cons _))
  have hrewired : Rewrites Body.ntype Placeable f.space f₂.space t.cells t'.cells :=
    (hdropped.trans (hchange.cells.frame (hdropped.owns h.owns))).perm (List.Perm.refl _)
      hcells'.symm
  have hlen : f₁.header.routingLen = 0 := by
    refine hgrows.routing.resolve_right fun hsame => ?_
    have hused := hgrows.used
    rw [hsame.2] at hused
    have hsize : routingSize [(bnOff, .blobNode [] guid)] = 128 := rfl
    omega
  constructor
  case bounded => exact hchange.bounded (hgrows.bounded h.bounded)
  case root =>
    have hkept : f₁.header.kept.root = f.header.kept.root := congrArg Header.root hgrows.kept
    have hfixed : f₂.header.fixed.root = f₁.header.fixed.root :=
      congrArg Header.root hchange.fixed
    change f₁.header.root = f.header.root at hkept
    change f₂.header.root = f₁.header.root at hfixed
    rw [hnote, h.root, hfixed, hkept]
  case owns => exact hrewired.owns h.owns
  case sentinel => exact h.sentinel_of_rewrites hrewired fun heq => absurd heq hne
  case routed =>
    intro hrouted
    rcases hchange.routing with hzero | ⟨hsame, -⟩
    · exact absurd hzero hrouted
    · exact absurd (hsame.trans hlen) hrouted

/-- What a spillover makes of a tree: a child, and a tree with an edge to it. -/
def Spilled (t : Tree) (path : List Byte) (guid : Guid) (child f' : Frame) : Prop :=
  ∃ (tc t' : Art ℕ) (v : List Byte) (rest : List (List Byte × Guid)),
    child.Holds tc ∧ tc.Wf v ∧ f'.Holds t' ∧ t'.Wf path ∧
    t.live.Perm (tc.live ++ t'.live) ∧ (t.edges path).Perm (tc.edges v ++ rest) ∧
    (t'.edges path).Perm ((v, guid) :: rest)

/-- The tree loses the subtree to the child and keeps an edge to it. -/
lemma ends_prepareSpillover {path : List Byte} {guid : Guid} (h : f.Holds t) (ht : t.Wf path) :
    Ends (prepareSpillover guid) f (Spilled t.plain path guid) (fun _ _ => True) := by
  unfold prepareSpillover
  refine ends_get_bind ?_
  rw [h.placed]
  simp only
  cases hpick : pickVictimSubtree t with
  | error e => exact ends_throw trivial
  | ok victim =>
    obtain ⟨sub, hvictim⟩ := victimOf_pick hpick
    have hne : t ≠ .emptyRoot dataAreaStart := by
      rintro rfl
      cases hvictim
    have hresolve : resolve f.heap f.header.numSlots victim.victimOff = some sub := by
      obtain ⟨t', hredirected⟩ := hvictim.redirect ht (.emptyRoot 0)
      obtain ⟨body, body', rest, hcells, -⟩ := hredirected.cells
      rw [hvictim.victimOff]
      refine resolve_cells sub (fun c hc => h.owns.held c (hcells.mem_iff.mpr ?_)) ?_
      · exact mem_cons_of_mem _ (mem_append_left _ hc)
      · refine le_trans ?_ h.length_cells_le
        rw [hcells.length_eq, length_cons, length_append]
        omega
    simp only [hresolve]
    have hspec := makeBlobFromNode_spec sub.plain guid
    revert hspec
    cases makeBlobFromNode sub.plain guid with
    | error e => exact fun _ => ends_throw trivial
    | ok child =>
      rintro ⟨-, tc, hchild, hplain, hheader⟩
      simp only
      have hguid : child.header.blobGuid = guid := by rw [hheader]; rfl
      rw [if_neg (not_not.mpr hguid)]
      refine Ends.bind (ends_abandonSubtree sub) fun _ f₁ hdead => ?_
      obtain ⟨n, rfl⟩ := hdead
      have hdeadHolds : ({ f with header := { f.header with deadBytes := n } } : Frame).Holds t :=
        h.failed (Changes.dead (Owns.nil _) n)
      have hplaced := @ends_cloneBlobNode none _ 0 [] guid hdeadHolds.bounded fun h => nomatch h
      refine Ends.bind (hplaced.mono (fun _ _ h => h) fun _ _ _ => trivial) ?_
      rintro bnOff f₂ ⟨hgrows, -⟩
      -- the new edge takes the place of the victim
      obtain ⟨t₁, hredirected⟩ := hvictim.redirect ht (.blobNode bnOff [] guid)
      obtain ⟨body, body', rest, hcells, hcells', hredirects⟩ := hredirected.cells
      have hheld : f₂.heap victim.parentOff = some body := by
        have hparent : (victim.parentOff, body) ∈ t.cells :=
          hcells.mem_iff.mpr mem_cons_self
        exact hgrows.cells.keeps _ (hdeadHolds.owns.held _ hparent)
          (hdeadHolds.owns.used _ hparent) fun d hd => nomatch hd
      refine Ends.bind (ends_rewireVictim hvictim.viaHeaderRoot hheld hredirects)
        fun _ f₃ hchange => ?_
      have hholds₃ : f₃.Holds t₁ :=
        holds_redirected hdeadHolds hne hcells hcells' hredirected.note hgrows hchange
      refine Ends.bind ((ends_compactBlob hholds₃).mono (fun _ _ h => h) fun _ _ _ => trivial) ?_
      rintro _ f' ⟨-, t', hrebuilt⟩
      obtain ⟨lrest, hleaves, hleaves'⟩ := hredirected.leaves
      obtain ⟨v, erest, hedges, hedges', hsub, hwf⟩ := hredirected.edges
      have hlive : t'.leaves = t₁.live := by rw [hrebuilt.leaves, Art.live_plain]
      refine ⟨tc, t', v, erest, hchild, ?_, hrebuilt.holds, ?_, ?_, ?_, ?_⟩
      · rw [← Art.wf_plain, hplain, Art.wf_plain]
        exact hsub
      · exact hrebuilt.wf ((Art.wf_plain t₁).mpr (hwf (Nat.zero_le _)))
      · have hkeep : t'.live = t₁.live := by
          rw [Art.live, hlive, Art.live, List.filter_filter]
          simp
        rw [Art.live_plain, ← Art.live_plain tc, hplain, Art.live_plain, hkeep]
        refine (hleaves.filter _).trans ?_
        rw [filter_append]
        exact (hleaves'.filter _).symm.append_left _
      · rw [Art.edges_plain, ← Art.edges_plain tc, hplain, Art.edges_plain]
        exact hedges
      · rw [hrebuilt.edges, Art.edges_plain]
        simpa [Art.edges] using hedges'

/-- Spillover keeps what can be reached: the rest of the tree and the child, which is installed and
dirty, have it between them.  If it fails nothing has changed. -/
theorem spillover_preserves_map (f : Frame) (pool : Pool) (path : List Byte) (seq : ℕ)
    (guid : Guid) (hwf : f.WellFormed path) (hunused : Unused pool.frames guid)
    (hnew : guid ∉ f.refs) :
    match exec (spilloverBlob seq guid) ⟨f, pool⟩ with
    | (.ok _, s) =>
      (∀ l, s.frame.Reaches s.pool.frames path l ↔ f.Reaches pool.frames path l) ∧
      s.frame.WellFormed path ∧
      (∃ child t v, s.pool.frames guid = some child ∧ child.WellFormed v ∧
        s.frame.tree = some t ∧ (v, guid) ∈ t.edges path) ∧
      (∃ n, s.pool.dirty guid = some n ∧ n ≤ seq) ∧
      (∀ g, g ≠ guid → s.pool.frames g = pool.frames g ∧ s.pool.dirty g = pool.dirty g)
    | (.error _, s) => s = ⟨f, pool⟩ := by
  obtain ⟨t, hholds, ht⟩ := hwf
  have hends := @ends_prepareSpillover t f path guid hholds ht
  have hrun : exec (spilloverBlob seq guid) ⟨f, pool⟩ =
      match exec (prepareSpillover guid) f with
      | (.error e, _) => (.error e, ⟨f, pool⟩)
      | (.ok child, prepared) => (.ok (), ⟨prepared, pool.installNewBlob guid child seq⟩) := by
    let finish : Except WalkError Frame × Frame → Prog Held WalkError Unit
      | (.error e, _) => throw e
      | (.ok child, prepared) => set (⟨prepared, pool.installNewBlob guid child seq⟩ : Held)
    change exec (finish (exec (prepareSpillover guid) f)) (⟨f, pool⟩ : Held) = _
    obtain ⟨e | child, prepared⟩ := exec (prepareSpillover guid) f
    · rfl
    · rfl
  rw [hrun]
  unfold Ends at hends
  revert hends
  obtain ⟨e | child, f'⟩ := exec (prepareSpillover guid) f
  · exact fun _ => rfl
  · intro hspilled
    obtain ⟨tc, t', v, rest, hchild, htc, hholds', ht', hlive, hedges, hedges'⟩ := hspilled
    rw [← Art.live_plain tc, ← Art.live_plain t'] at hlive
    rw [← Art.edges_plain tc] at hedges
    rw [← Art.edges_plain t'] at hedges'
    -- the stamp of the epoch is not read
    have hstamped : ({ child with header := { child.header with
        createdEpoch := pool.currentEpoch } } : Frame).Holds tc :=
      { hchild with
        bounded := { hchild.bounded with }
        routed := fun hlen => { hchild.routed hlen with } }
    refine ⟨fun l => ?_, ⟨t', hholds', ht'⟩, ?_, ?_, fun g hg => ?_⟩
    · rw [Frame.refs_eq hholds.tree] at hnew
      rw [Frame.reaches_iff hholds'.tree, Frame.reaches_iff hholds.tree,
        ← reaches_update_iff hunused hnew]
      exact reaches_split_iff (update_self ..) hstamped.tree hlive hedges hedges'
    · exact ⟨_, t'.plain, v, update_self .., ⟨tc, hstamped, htc⟩, hholds'.tree,
        hedges'.mem_iff.mpr mem_cons_self⟩
    · refine ⟨_, update_self .., ?_⟩
      change (pool.dirty guid).elim seq (min · seq) ≤ seq
      cases pool.dirty guid with
      | none => exact le_rfl
      | some n => exact min_le_right _ _
    · exact ⟨update_of_ne hg _ _, update_of_ne hg _ _⟩

/-- A pool without blobs. -/
def emptyPool : Pool := ⟨fun _ => none, fun _ => none, 0⟩

/-- Some other guid. -/
def freshGuid : Guid := ⟨List.replicate 16 1, rfl⟩

theorem spillover_preserves_map_mixed : mixedFrame.tree = some mixedTree ∧
    ∃ s, exec (spilloverBlob 9 freshGuid) ⟨mixedFrame, emptyPool⟩ = (.ok (), s) ∧
      (∀ l, s.frame.Reaches s.pool.frames [] l ↔ mixedFrame.Reaches emptyPool.frames [] l) ∧
      s.frame.WellFormed [] ∧
      (∃ child t v, s.pool.frames freshGuid = some child ∧ child.WellFormed v ∧
        s.frame.tree = some t ∧ (v, freshGuid) ∈ t.edges []) ∧
      (∃ n, s.pool.dirty freshGuid = some n ∧ n ≤ 9) ∧
      (∀ g, g ≠ freshGuid → s.pool.frames g = emptyPool.frames g ∧
        s.pool.dirty g = emptyPool.dirty g) := by
  obtain ⟨hwf, ht⟩ := mixedFrame_wf
  have hunused : Unused emptyPool.frames freshGuid := ⟨rfl, fun _ _ h => nomatch h⟩
  have hnew : freshGuid ∉ mixedFrame.refs := by
    rw [Frame.refs_eq ht]
    decide
  refine ⟨ht, ?_⟩
  have hspec := spillover_preserves_map mixedFrame emptyPool [] 9 freshGuid hwf hunused hnew
  have hok : (exec (spilloverBlob 9 freshGuid) ⟨mixedFrame, emptyPool⟩).1.toBool = true := by
    decide +kernel
  revert hspec hok
  obtain ⟨e | a, s⟩ := exec (spilloverBlob 9 freshGuid) ⟨mixedFrame, emptyPool⟩
  · intro _ hok
    cases hok
  · exact fun hspec _ => ⟨s, rfl, hspec⟩

end Holt.Engine
