import Holt.Engine.TreeInsert
import Holt.Engine.Writers

/-!
# Inserting into a frame

`insert_at_step` as it runs: it goes down through the bodies of one frame, allocates what it needs
on the way back up, and repoints the nodes above.  The descent only reads, so it follows the tree
the frame's bytes say; every allocation and every write is one of the frame's.

`insertAtStep_spec` says that this is `Tree.insert` on the tree, and that an insert that cannot
allocate has changed no body that the tree has: it leaves unreachable bytes behind and nothing
else (`Failed`).
-/

namespace Holt.Engine

open List
open Store (Guid)
open Arena (Cell Owns Rewrites Space Sized size size_pos stop)
open Fallible
open SortedAssoc (find sortByKey)

/-- `InsertReturn`. -/
structure InsertReturn where
  offAfter : ℕ
  mutated : Bool
deriving DecidableEq

/-- `InsertBlobCrossing`. -/
structure InsertBlobCrossing where
  childGuid : Guid
  childDepth : ℕ
  parentOff : ℕ
deriving DecidableEq

/-- `InsertStep`. -/
inductive InsertStep
  | done (r : InsertReturn)
  | crossing (c : InsertBlobCrossing)
deriving DecidableEq

/-- `insert_into_empty_root`. -/
def insertIntoEmptyRoot (p : Put) (emptyOff : ℕ) : FrameM InsertReturn :=
  if p.guarded then pure ⟨emptyOff, false⟩
  else do
    let newOff ← writeLeaf p.key p.value p.seq
    noteAbandoned emptyOff
    pure ⟨newOff, true⟩

/-- A tombstoned leaf came back to life. -/
def dropTombstone (wasTombstoned : Bool) : FrameM Unit :=
  if wasTombstoned then modify fun f => { f with header := { f.header with
    tombstoneLeafCnt := f.header.tombstoneLeafCnt - 1 } }
  else pure ()

/-- `write_leaf_split`, and the same steps for a prefix and a blob node: the node at `off` and a
new leaf part after the bytes `shared`. -/
def writeLeafSplit (p : Put) (off : ℕ) (shared : List Byte) (byteExisting byteNew : Byte) :
    FrameM ℕ := do
  let newLeaf ← writeLeaf p.key p.value p.seq
  let n4 ← writeNode4With [(byteExisting, off), (byteNew, newLeaf)]
  writePrefixChain shared n4

/-- The same-key arm of `insert_into_leaf`: in place if the new value fits the body there is. -/
def updateLeaf (p : Put) (leafOff : ℕ) (l : Leaf) : FrameM InsertReturn :=
  if leafBodySize l.key.length p.value.length ≤ l.bodySize then do
    writeBody leafOff (.leaf ⟨l.key, p.value, p.seq, false, SearchKey.fingerprint p.key⟩)
    dropTombstone l.tombstone
    pure ⟨leafOff, true⟩
  else do
    let newOff ← writeLeaf p.key p.value p.seq
    noteAbandoned leafOff
    dropTombstone l.tombstone
    pure ⟨newOff, true⟩

/-- `insert_into_leaf`. -/
def insertIntoLeaf (p : Put) (depth leafOff : ℕ) (l : Leaf) : FrameM InsertReturn :=
  if SearchKey.eqSlice p.key l.key then
    if p.rejects l then pure ⟨leafOff, false⟩ else updateLeaf p leafOff l
  else
    let suffix := l.key.drop depth
    let common := SearchKey.commonPrefixWithSlice p.key depth suffix
    if common = suffix.length ∨ common = SearchKey.remainingLen p.key depth then
      throw (.notYetImplemented
        "walker::insert_into_leaf: one key is a strict prefix of the other")
    else if p.guarded then pure ⟨leafOff, false⟩
    else do
      let off ← writeLeafSplit p leafOff (suffix.take common) (suffix.getD common 0)
        ((SearchKey.byteAt p.key (depth + common)).getD 0)
      pure ⟨off, true⟩

/-- `insert_into_prefix_step` when the key leaves the prefix. -/
def splitPrefixNode (p : Put) (depth pfxOff : ℕ) (bytes : List Byte) (childOff : ℕ) :
    FrameM InsertReturn :=
  let common := SearchKey.commonPrefixWithSlice p.key depth bytes
  if depth + common ≥ SearchKey.len p.key then
    throw (.notYetImplemented "walker::insert_into_prefix: key terminates inside a prefix")
  else if p.guarded then pure ⟨pfxOff, false⟩
  else do
    let existing ← writePrefixChain (bytes.drop (common + 1)) childOff
    let off ← writeLeafSplit p existing (bytes.take common) (bytes.getD common 0)
      ((SearchKey.byteAt p.key (depth + common)).getD 0)
    noteAbandoned pfxOff
    pure ⟨off, true⟩

/-- `blob_node_insert_step`; the blob node stays where it is and keeps the bytes past the fork. -/
def blobNodeInsertStep (p : Put) (depth off : ℕ) (bytes : List Byte) (guid : Guid) :
    FrameM InsertStep :=
  let common := SearchKey.commonPrefixWithSlice p.key depth bytes
  if common = bytes.length then pure (.crossing ⟨guid, depth + bytes.length, off⟩)
  else match SearchKey.byteAt p.key (depth + common) with
    | none =>
      throw (.notYetImplemented "blob_node_insert_step: key terminates inside BlobNode prefix")
    | some byte =>
      if p.guarded then pure (.done ⟨off, false⟩)
      else do
        let finalOff ← writeLeafSplit p off (bytes.take common) (bytes.getD common 0) byte
        writeBody off (.blobNode (bytes.drop (common + 1)) guid)
        pure (.done ⟨finalOff, true⟩)

/-- What is left to do after the step below a node: repoint the node if its child has moved. -/
def rewire (off childOff : ℕ) (redirect : ℕ → FrameM Unit) : InsertStep → FrameM InsertStep
  | .crossing c => pure (.crossing c)
  | .done r => do
    if r.offAfter ≠ childOff then redirect r.offAfter else pure ()
    pure (.done ⟨off, r.mutated⟩)

mutual

/-- `insert_at_step` with crossings allowed. -/
def insertAtStep (p : Put) (depth : ℕ) : Art ℕ → FrameM InsertStep
  | .emptyRoot off => .done <$> insertIntoEmptyRoot p off
  | .leaf off l => .done <$> insertIntoLeaf p depth off l
  | .prefixNode off bytes child =>
    if SearchKey.commonPrefixWithSlice p.key depth bytes = bytes.length then do
      let r ← insertAtStep p (depth + bytes.length) child
      rewire off child.note (setPrefixChild off) r
    else .done <$> splitPrefixNode p depth off bytes child.note
  | .inner off kind children =>
    match SearchKey.byteAt p.key depth with
    | none =>
      throw (.notYetImplemented "walker::insert_into_inner: key terminates at an inner node")
    | some byte =>
      match insertAtChild p (depth + 1) byte children with
      | some (childOff, step) => do
        let r ← step
        rewire off childOff (innerUpdateChild off byte) r
      | none =>
        if p.guarded then pure (.done ⟨off, false⟩)
        else do
          let newLeaf ← writeLeaf p.key p.value p.seq
          let grown ← innerAddChild kind off byte newLeaf
          pure (.done ⟨grown, true⟩)
  | .blobNode off bytes guid => blobNodeInsertStep p depth off bytes guid

/-- `inner_find_child` and the step at the child it finds. -/
def insertAtChild (p : Put) (depth : ℕ) (byte : Byte) :
    List (Byte × Art ℕ) → Option (ℕ × FrameM InsertStep)
  | [] => none
  | (b, child) :: rest =>
    if b = byte then some (child.note, insertAtStep p depth child)
    else insertAtChild p depth byte rest

end

/-- One round of `lock_coupled_insert_in_blob`: the step at the root, and the new root if it
changed something. -/
def insertInBlob (p : Put) (depth : ℕ) : FrameM InsertStep := do
  let f ← get
  match f.placed with
  | none => throw (.nodeCorrupt "walker: undecodable node type")
  | some t => do
    let r ← insertAtStep p depth t
    match r with
    | .done out =>
      if out.mutated then
        modify fun f => { f with header := { f.header with root := out.offAfter } }
      pure r
    | .crossing _ => pure r

variable {p : Put} {depth off : ℕ} {f f₁ f' : Frame} {t : Art ℕ} {bytes shared : List Byte}
  {byte byte' : Byte} {e : WalkError}

@[simp] lemma insertAtChild_eq {children : List (Byte × Art ℕ)} :
    insertAtChild p depth byte children =
      (find byte children).map fun c => (c.note, insertAtStep p depth c) := by
  induction children with
  | nil => rfl
  | cons c rest ih =>
    rw [insertAtChild, ih, find]
    split_ifs <;> rfl

/-! ## Chains and forks -/

/-- The tree at `off` is `u`, made of the bodies of `t` and new ones. -/
def Above (t : Art ℕ) (u : Tree) (f : Frame) (off : ℕ) (f' : Frame) : Prop :=
  ∃ (t' : Art ℕ) (new : List (Cell Body)), t'.note = off ∧ t'.plain = u ∧
    t'.cells.Perm (new ++ t.cells) ∧ Changes 0 f f' [] new

/-- `writePrefixChain` puts a chain above a tree. -/
lemma ends_writePrefixChain (hf : f.header.Bounded) (bytes : List Byte) (t : Art ℕ) :
    Ends (writePrefixChain bytes t.note) f (Above t (Tree.chain bytes t.plain) f) (Failed f) := by
  have hloop : ∀ fuel (bytes : List Byte) (t : Art ℕ) (f : Frame), f.header.Bounded →
      Ends (prefixChainLoop fuel bytes t.note) f
        (Above t (Tree.chainLoop fuel bytes t.plain) f) (Failed f) := by
    intro fuel
    induction fuel with
    | zero => exact fun bytes t f _ => ends_pure ⟨t, [], rfl, rfl, .refl _, Changes.nil f⟩
    | succ fuel ih =>
      intro bytes t f hf
      unfold prefixChainLoop Tree.chainLoop
      by_cases hnil : bytes = []
      · simp only [if_pos hnil]
        exact ends_pure ⟨t, [], rfl, rfl, .refl _, Changes.nil f⟩
      simp only [if_neg hnil]
      generalize bytes.length - min bytes.length prefixMaxInline = start
      refine Ends.bind (ends_placeNode hf rfl) fun off f₁ hplace => ?_
      refine (ih _ (.prefixNode off (bytes.drop start) t) f₁ (hplace.bounded hf)).mono ?_
        fun e f₂ hfail => hfail.after hplace
      rintro off' f₂ ⟨t', new, hnote, hplain, hcells, hchange⟩
      refine ⟨t', new ++ [_], hnote, hplain, hcells.trans ?_, hplace.more hchange⟩
      rw [append_assoc]
      exact .refl _
  exact hloop _ _ _ _ hf

/-- `writeLeafSplit` puts a fork above a tree. -/
lemma ends_writeLeafSplit (hf : f.header.Bounded) (t : Art ℕ) :
    Ends (writeLeafSplit p t.note shared byte byte') f
      (Above t (Tree.fork shared byte t.plain byte' (.leaf () p.leaf)) f) (Failed f) := by
  unfold writeLeafSplit
  refine Ends.bind (ends_writeLeaf hf) fun leafOff f₁ hleaf => ?_
  have hbounded := hleaf.bounded hf
  refine Ends.bind ((ends_placeNode hbounded rfl).mono (fun _ _ h => h)
    fun e f₂ hfail => hfail.after hleaf) fun n4 f₂ hnode => ?_
  have hboth := hleaf.more hnode
  refine (ends_writePrefixChain (hboth.bounded hf) shared (.inner n4 .node4
    (sortByKey [(byte, t), (byte', .leaf leafOff p.leaf)]))).mono ?_
    fun e f₃ hfail => hfail.after hboth
  rintro off f₃ ⟨t', new, hnote, hplain, hcells, hchange⟩
  refine ⟨t', new ++ [_, _], hnote, ?_, ?_, hboth.more hchange⟩
  · rw [hplain, Tree.fork, Art.plain, Art.plainAll_eq, SortedAssoc.map_sortByKey_pair]
    rfl
  · refine hcells.trans ?_
    rw [append_assoc, Art.cells, Art.cellsAll_eq,
      SortedAssoc.map_sortByKey_pair Art.note]
    refine List.Perm.append_left _ (List.Perm.cons _ ?_)
    refine ((SortedAssoc.perm_pair _ _).flatMap_right _).trans ?_
    simp only [flatMap_cons, flatMap_nil, append_nil, Art.cells]
    exact perm_append_singleton _ _

/-! ## What a step does -/

/-- The step has done to the frame what the outcome is on the tree. -/
def Realizes (t : Art ℕ) (f : Frame) : Outcome → InsertStep → Frame → Prop
  | .crossing guid depth, r, f' => f' = f ∧ ∃ off bytes, r = .crossing ⟨guid, depth, off⟩ ∧
      (off, Body.blobNode bytes guid) ∈ t.cells
  | .kept, r, f' => f' = f ∧ r = .done ⟨t.note, false⟩
  | .made u, r, f' => ∃ (t' : Art ℕ) (d : ℕ), r = .done ⟨t'.note, true⟩ ∧ t'.plain = u ∧
      t'.tombs + d = t.tombs ∧ Changes d f f' t.cells t'.cells

/-- A step that returns. -/
def Stepped (p : Put) (depth : ℕ) (t : Art ℕ) (f : Frame) (r : InsertStep) (f' : Frame) : Prop :=
  ∃ o, Tree.insert p depth t.plain = .ok o ∧ Realizes t f o r f'

/-- A step that fails: it ran out of space, or the tree refuses the key and nothing happened. -/
def Refused (p : Put) (depth : ℕ) (t : Art ℕ) (f : Frame) (e : WalkError) (f' : Frame) : Prop :=
  Failed f e f' ∨ Tree.insert p depth t.plain = .error e ∧ f' = f

lemma tombs_fork {t : Tree} : (Tree.fork shared byte t byte' (.leaf () p.leaf)).tombs =
    t.tombs := by
  rw [Art.tombs, Tree.leaves_fork.countP_eq, countP_append]
  rfl

lemma Above.realizes {t₀ : Art ℕ} {u : Tree} {rest : List (Cell Body)}
    (h : Above t₀ u f off f') (hown : Owns f.space t.cells) (hcells : t₀.cells = rest)
    (hs : rest.Sublist t.cells) (htombs : u.tombs = t.tombs) :
    Realizes t f (.made u) (.done ⟨off, true⟩) f' := by
  obtain ⟨t', new, rfl, hplain, hperm, hchange⟩ := h
  refine ⟨t', 0, rfl, hplain, ?_, ?_⟩
  · rw [← Art.tombs_plain, hplain, htombs, Nat.add_zero]
  · exact (hchange.beside hown hs).perm (.refl _) (hcells ▸ hperm.symm)

lemma ends_dropTombstone {b : Bool} {E : WalkError → Frame → Prop} {old : List (Cell Body)}
    (hown : Owns f.space old) :
    Ends (dropTombstone b) f (fun _ f' => Changes b.toNat f f' old old) E := by
  cases b with
  | false => exact Changes.refl hown
  | true => exact Changes.entombed hown 1

lemma insertIntoEmptyRoot_spec (hf : f.header.Bounded) (hown : Owns f.space [(off, .emptyRoot)]) :
    Ends (insertIntoEmptyRoot p off) f
      (fun r f' => Stepped p depth (.emptyRoot off) f (.done r) f') (Failed f) := by
  unfold insertIntoEmptyRoot
  refine ends_ite (fun hguard => ?_) (fun hguard => ?_)
  · exact ends_pure ⟨.kept, by rw [Art.plain, Tree.insert, if_pos hguard], rfl, rfl⟩
  refine Ends.bind (ends_writeLeaf hf) fun newOff f₁ hleaf => ?_
  refine Ends.bind (ends_noteAbandoned (hleaf.owns (Owns.nil _))) fun _ f₂ hdead => ?_
  refine ends_pure ⟨.made (.leaf () p.leaf), by rw [Art.plain, Tree.insert, if_neg hguard],
    .leaf newOff p.leaf, 0, rfl, rfl, rfl, ?_⟩
  exact (hleaf.beside hown (nil_sublist _)).trans_zero hdead

/-- The same key: its leaf is rewritten in place or replaced. -/
lemma updateLeaf_spec {l : Leaf} (hf : f.header.Bounded) (hown : Owns f.space [(off, .leaf l)])
    (hkey : l.key = SearchKey.full p.key) :
    Ends (updateLeaf p off l) f
      (fun r f' => Realizes (.leaf off l) f (.made (.leaf () p.leaf)) (.done r) f') (Failed f) := by
  have htombs : ∀ o : ℕ, (Art.leaf o p.leaf).tombs + l.tombstone.toNat =
      (Art.leaf off l).tombs := by
    intro o
    cases h : l.tombstone <;> simp [Art.tombs, Art.leaves, h, Put.leaf, Leaf.fresh]
  unfold updateLeaf
  refine ends_ite (fun hfits => ?_) (fun _ => ?_)
  · have hleaf : (⟨l.key, p.value, p.seq, false, SearchKey.fingerprint p.key⟩ : Leaf) = p.leaf := by
      rw [hkey]
      rfl
    rw [hleaf]
    have hle : size (Body.leaf p.leaf) ≤ size (Body.leaf l) := by
      rw [hkey] at hfits
      exact hfits
    refine Ends.bind (ends_writeBody hle rfl) fun _ f₁ hwrite => ?_
    refine Ends.bind (ends_dropTombstone (hwrite.owns hown)) fun _ f₂ hdrop => ?_
    exact ends_pure ⟨.leaf off p.leaf, l.tombstone.toNat, rfl, rfl, htombs off,
      hwrite.trans_zero hdrop⟩
  · refine Ends.bind (ends_writeLeaf hf) fun newOff f₁ hleaf => ?_
    have hreplace := hleaf.beside hown (nil_sublist _)
    have hnew := hreplace.owns hown
    refine Ends.bind (ends_noteAbandoned hnew) fun _ f₂ hdead => ?_
    refine Ends.bind (ends_dropTombstone (hdead.owns hnew)) fun _ f₃ hdrop => ?_
    exact ends_pure ⟨.leaf newOff p.leaf, l.tombstone.toNat, rfl, rfl, htombs newOff,
      (hreplace.trans_zero hdead).trans_zero hdrop⟩

lemma insertIntoLeaf_spec {l : Leaf} (hf : f.header.Bounded)
    (hown : Owns f.space [(off, .leaf l)]) :
    Ends (insertIntoLeaf p depth off l) f
      (fun r f' => Stepped p depth (.leaf off l) f (.done r) f')
      (Refused p depth (.leaf off l) f) := by
  have hinsert : Tree.insert p depth (Art.leaf off l).plain = Tree.insertLeaf p depth l := by
    rw [Art.plain, Tree.insert]
  unfold insertIntoLeaf
  refine ends_ite (fun hsame => ends_ite (fun hrej => ?_) (fun hrej => ?_)) (fun hsame => ?_)
  · exact ends_pure ⟨.kept, by rw [hinsert, Tree.insertLeaf, if_pos hsame, if_pos hrej], rfl, rfl⟩
  · refine (updateLeaf_spec hf hown (SearchKey.eqSlice_iff.mp hsame)).mono
      (fun r f' h => ⟨_, ?_, h⟩) (fun e f' h => .inl h)
    rw [hinsert, Tree.insertLeaf, if_pos hsame, if_neg hrej]
  refine ends_ite (fun hstrict => ?_) (fun hstrict => ends_ite (fun hguard => ?_)
    (fun hguard => ?_))
  · exact ends_throw (.inr ⟨by simp only [hinsert, Tree.insertLeaf, if_neg hsame, if_pos hstrict],
      rfl⟩)
  · exact ends_pure ⟨.kept, by
      simp only [hinsert, Tree.insertLeaf, if_neg hsame, if_neg hstrict, if_pos hguard], rfl, rfl⟩
  · refine Ends.bind ((ends_writeLeafSplit hf (.leaf off l)).mono (fun _ _ h => h)
      fun e f' h => .inl h) fun newOff f₁ hfork => ?_
    refine ends_pure ⟨_, ?_, hfork.realizes hown rfl (List.Sublist.refl _) tombs_fork⟩
    simp only [hinsert, Tree.insertLeaf, if_neg hsame, if_neg hstrict, if_neg hguard]
    rfl

/-- A key that parts from a prefix: the prefix is cut there, and a fork put between. -/
lemma splitPrefixNode_spec {child : Art ℕ} (hf : f.header.Bounded)
    (hown : Owns f.space (Art.prefixNode off bytes child).cells)
    (hpart : SearchKey.commonPrefixWithSlice p.key depth bytes ≠ bytes.length) :
    Ends (splitPrefixNode p depth off bytes child.note) f
      (fun r f' => Stepped p depth (.prefixNode off bytes child) f (.done r) f')
      (Refused p depth (.prefixNode off bytes child) f) := by
  have hinsert : Tree.insert p depth (Art.prefixNode off bytes child).plain =
      Tree.splitPrefix p depth bytes child.plain := by
    rw [Art.plain, Tree.insert, if_neg hpart]
  unfold splitPrefixNode
  refine ends_ite (fun hend => ?_) (fun hend => ends_ite (fun hguard => ?_) (fun hguard => ?_))
  · exact ends_throw (.inr ⟨by simp only [hinsert, Tree.splitPrefix, if_pos hend], rfl⟩)
  · exact ends_pure ⟨.kept, by
      simp only [hinsert, Tree.splitPrefix, if_neg hend, if_pos hguard], rfl, rfl⟩
  -- the rest of the prefix is put above the child, then the fork above that
  refine Ends.bind ((ends_writePrefixChain hf _ child).mono (fun _ _ h => h)
    fun e f' h => .inl h) ?_
  rintro existing f₁ ⟨t₁, new₁, rfl, hplain₁, hperm₁, hchange₁⟩
  refine Ends.bind ((ends_writeLeafSplit (hchange₁.bounded hf) t₁).mono (fun _ _ h => h)
    fun e f' h => .inl (h.after hchange₁)) ?_
  rintro newOff f₂ ⟨t₂, new₂, rfl, hplain₂, hperm₂, hchange₂⟩
  have hboth : Above child t₂.plain f t₂.note f₂ := by
    refine ⟨t₂, new₂ ++ new₁, rfl, rfl, hperm₂.trans ?_, hchange₁.more hchange₂⟩
    rw [append_assoc]
    exact hperm₁.append_left _
  have htombs : t₂.plain.tombs = (Art.prefixNode off bytes child).tombs := by
    rw [hplain₂, tombs_fork, hplain₁, Art.tombs, Tree.leaves_chain, Art.leaves_plain]
    rfl
  obtain ⟨t', d, hnote, hplain, hd, hchange⟩ :=
    hboth.realizes hown rfl (sublist_cons_self _ _) htombs
  refine Ends.bind (ends_noteAbandoned (hchange.owns hown)) fun _ f₃ hdead => ?_
  refine ends_pure ⟨.made t₂.plain, ?_, t', d, hnote, hplain, hd, hchange.trans hdead⟩
  simp only [hinsert, Tree.splitPrefix, if_neg hend, if_neg hguard, hplain₂, hplain₁]

/-- At an edge the key goes on in the child, or parts from the bytes of the edge. -/
lemma blobNodeInsertStep_spec {guid : Guid} (hf : f.header.Bounded)
    (hown : Owns f.space [(off, .blobNode bytes guid)]) :
    Ends (blobNodeInsertStep p depth off bytes guid) f
      (Stepped p depth (.blobNode off bytes guid) f)
      (Refused p depth (.blobNode off bytes guid) f) := by
  have hinsert : Tree.insert p depth (Art.blobNode off bytes guid).plain =
      Tree.insertBlobNode p depth bytes guid := by
    rw [Art.plain, Tree.insert]
  unfold blobNodeInsertStep
  refine ends_ite (fun hall => ?_) (fun hall => ?_)
  · exact ends_pure ⟨.crossing guid (depth + bytes.length), by
      simp only [hinsert, Tree.insertBlobNode, if_pos hall], rfl, off, bytes, rfl,
      mem_singleton_self _⟩
  cases hbyte : SearchKey.byteAt p.key
      (depth + SearchKey.commonPrefixWithSlice p.key depth bytes) with
  | none =>
    exact ends_throw (.inr ⟨by simp only [hinsert, Tree.insertBlobNode, if_neg hall, hbyte], rfl⟩)
  | some byte =>
    refine ends_ite (fun hguard => ?_) (fun hguard => ?_)
    · exact ends_pure ⟨.kept, by
        simp only [hinsert, Tree.insertBlobNode, if_neg hall, hbyte, if_pos hguard], rfl, rfl⟩
    refine Ends.bind ((ends_writeLeafSplit hf (.blobNode off
      (bytes.drop (SearchKey.commonPrefixWithSlice p.key depth bytes + 1)) guid)).mono
      (fun _ _ h => h) fun e f' h => .inl h) ?_
    rintro finalOff f₁ ⟨t', new, rfl, hplain, hperm, hchange⟩
    have hkept := hchange.frame hown
    have hle : ∀ tail, size (Body.blobNode tail guid) ≤ size (Body.blobNode bytes guid) :=
      fun _ => le_refl _
    -- the edge is shortened where it is
    refine Ends.bind (ends_writeBody (hle _) rfl) fun _ f₂ hadjust => ?_
    refine ends_pure ⟨.made t'.plain, ?_, t', 0, rfl, rfl, ?_, ?_⟩
    · simp only [hinsert, Tree.insertBlobNode, if_neg hall, hbyte, if_neg hguard, hplain]
      rfl
    · rw [← Art.tombs_plain, hplain, tombs_fork]
      rfl
    · exact (hkept.trans_zero (hadjust.frame_left (hkept.owns hown))).perm (.refl _) hperm.symm

/-- What a step below a node has done to the node, whose body is `body n` with its child at `n`
and which has the bodies `rest` beside that child. -/
def Rewired (f : Frame) (off : ℕ) (body : ℕ → Body) (c : Art ℕ) (rest : List (Cell Body)) :
    Outcome → InsertStep → Frame → Prop
  | .crossing guid depth, r, f' => f' = f ∧ ∃ at' bytes, r = .crossing ⟨guid, depth, at'⟩ ∧
      (at', Body.blobNode bytes guid) ∈ c.cells
  | .kept, r, f' => f' = f ∧ r = .done ⟨off, false⟩
  | .made u, r, f' => ∃ (c' : Art ℕ) (d : ℕ), r = .done ⟨off, true⟩ ∧ c'.plain = u ∧
      c'.tombs + d = c.tombs ∧
      Changes d f f' ((off, body c.note) :: (c.cells ++ rest))
        ((off, body c'.note) :: (c'.cells ++ rest))

/-- A node follows its child to where the child has moved. -/
lemma ends_rewire {c : Art ℕ} (body : ℕ → Body) {rest : List (Cell Body)} {o : Outcome}
    {redirect : ℕ → FrameM Unit} {r : InsertStep} {E : WalkError → Frame → Prop}
    (hown : Owns f.space ((off, body c.note) :: (c.cells ++ rest)))
    (hredirect : ∀ f₁ n, f₁.heap off = some (body c.note) → Ends (redirect n) f₁
      (fun _ f₂ => Changes 0 f₁ f₂ [(off, body c.note)] [(off, body n)]) E)
    (hr : Realizes c f o r f₁) :
    Ends (rewire off c.note redirect r) f₁ (Rewired f off body c rest o) E := by
  cases o with
  | crossing guid depth =>
    obtain ⟨rfl, at', bytes, rfl, hmem⟩ := hr
    exact ends_pure ⟨rfl, at', bytes, rfl, hmem⟩
  | kept =>
    obtain ⟨rfl, rfl⟩ := hr
    simp only [rewire, ne_eq, not_true_eq_false, if_false]
    exact ends_pure ⟨rfl, rfl⟩
  | made u =>
    obtain ⟨c', d, rfl, hplain, htombs, hchange⟩ := hr
    have hchild := hchange.frame (hown.sublist (sublist_cons_self _ _))
    have hbeside := hchild.frame_cons hown
    have hrewired : ∀ f₂, Changes 0 f₁ f₂ [(off, body c.note)] [(off, body c'.note)] →
        Rewired f off body c rest (.made u) (.done ⟨off, true⟩) f₂ := fun f₂ h =>
      ⟨c', d, rfl, hplain, htombs, hbeside.trans (h.frame (hbeside.owns hown))⟩
    by_cases hmoved : c'.note ≠ c.note
    · simp only [rewire, if_pos hmoved]
      have hheld : f₁.heap off = some (body c.note) :=
        (hbeside.owns hown).held _ mem_cons_self
      exact Ends.bind (hredirect f₁ c'.note hheld) fun _ f₂ h => ends_pure (hrewired f₂ h)
    · simp only [rewire, if_neg hmoved]
      have hsame := Changes.refl ((hbeside.owns hown).sublist
        (singleton_sublist.mpr mem_cons_self))
      have hnote : c'.note = c.note := not_not.mp hmoved
      exact ends_pure (hrewired f₁ (hnote ▸ hsame))

section Inner

variable {kind : NodeKind} {children : List (Byte × Art ℕ)}

/-- The key has no child: a leaf is added to the node, which may have to grow. -/
lemma addLeaf_spec (hf : f.header.Bounded) (hown : Owns f.space (Art.inner off kind children).cells)
    (hlen : children.length ≤ kind.capacity) (hbyte : SearchKey.byteAt p.key depth = some byte)
    (hfind : find byte children = none) :
    Ends (if p.guarded then pure (.done ⟨off, false⟩)
      else do
        let newLeaf ← writeLeaf p.key p.value p.seq
        let grown ← innerAddChild kind off byte newLeaf
        pure (.done ⟨grown, true⟩)) f
      (Stepped p depth (.inner off kind children) f)
      (Refused p depth (.inner off kind children) f) := by
  have hinsert : Tree.insert p depth (Art.inner off kind children).plain =
      .ok (if p.guarded then .kept else .made (.inner () (kind.widened children.length)
        (SortedAssoc.set byte (.leaf () p.leaf) (Art.plainAll children)))) := by
    simp only [Art.plain, Tree.insert, hbyte, Tree.insertChild_eq, Art.plainAll_eq,
      SortedAssoc.find_map, hfind, Option.map_none, length_map]
  refine ends_ite (fun hguard => ?_) (fun hguard => ?_)
  · exact ends_pure ⟨.kept, by rw [hinsert, if_pos hguard], rfl, rfl⟩
  rw [if_neg hguard] at hinsert
  refine Ends.bind ((ends_writeLeaf hf).mono (fun _ _ h => h) fun _ _ h => .inl h) ?_
  intro leafOff f₁ hleaf
  have hbeside : Changes 0 f f₁ (Art.inner off kind children).cells
      ((off, .inner kind (children.map fun c => (c.1, c.2.note))) ::
        (leafOff, .leaf p.leaf) :: children.flatMap fun c => c.2.cells) := by
    refine (hleaf.frame hown).perm (.refl _) ?_
    rw [Art.cellsAll_eq]
    exact List.Perm.swap _ _ _
  have hnode := (hbeside.owns hown).sublist (singleton_sublist.mpr mem_cons_self)
  have hroom : (children.map fun c => (c.1, c.2.note)).length ≤ kind.capacity := by
    rwa [length_map]
  have hadd := adds_innerAddChild kind hroom f₁ off byte leafOff (hleaf.bounded hf) hnode
    (by rw [SortedAssoc.find_map, hfind, Option.map_none])
  refine Ends.bind (hadd.mono (fun _ _ h => h) fun _ _ h => .inl (h.after hleaf)) ?_
  intro grown f₂ hgrown
  obtain ⟨l, r, hsplit, hset⟩ := SortedAssoc.set_of_not_find hfind
  refine ends_pure ⟨_, hinsert, .inner grown (kind.widened children.length)
    (SortedAssoc.set byte (.leaf leafOff p.leaf) children), 0, rfl, ?_, ?_, ?_⟩
  · rw [Art.plain, Art.plainAll_eq, Art.plainAll_eq, ← SortedAssoc.set_map]
    rfl
  · rw [Art.tombs, Art.tombs, Art.leaves_inner, Art.leaves_inner, hset, hsplit]
    simp [flatMap_append, Art.leaves, Put.leaf, Leaf.fresh]
  · refine (hbeside.trans_zero (hgrown.frame (hbeside.owns hown))).perm (.refl _) ?_
    have hnotes : SortedAssoc.set byte leafOff (children.map fun c => (c.1, c.2.note)) =
        (SortedAssoc.set byte (.leaf leafOff p.leaf) children).map fun c => (c.1, c.2.note) :=
      SortedAssoc.set_map (x := Art.leaf leafOff p.leaf) Art.note
    rw [length_map, Art.cells_inner, hnotes, hset, hsplit]
    refine List.Perm.cons _ ?_
    simp only [flatMap_append, flatMap_cons, Art.cells]
    exact perm_middle.symm

/-- The key has a child: the step goes on there, and the node is repointed if the child moved. -/
lemma rewireInner_spec {child : Art ℕ} {o : Outcome} {r : InsertStep}
    {E : WalkError → Frame → Prop} (hown : Owns f.space (Art.inner off kind children).cells)
    (hinc : SortedAssoc.Increasing children) (hfind : find byte children = some child)
    (hr : Realizes child f o r f₁) :
    Ends (rewire off child.note (innerUpdateChild off byte) r) f₁
      (Realizes (.inner off kind children) f (o.map fun t => .inner () kind
        (SortedAssoc.set byte t (Art.plainAll children)))) E := by
  obtain ⟨l, r', hsplit, -, hset⟩ := SortedAssoc.set_of_find hinc hfind
  have hself : SortedAssoc.set byte child children = children := by rw [hset, ← hsplit]
  have hnotes : ∀ c : Art ℕ, SortedAssoc.set byte c.note (children.map fun c => (c.1, c.2.note)) =
      (SortedAssoc.set byte c children).map fun c => (c.1, c.2.note) :=
    fun c => SortedAssoc.set_map Art.note
  have hcells : ∀ c : Art ℕ, (Art.inner off kind (SortedAssoc.set byte c children)).cells.Perm
      ((off, .inner kind (SortedAssoc.set byte c.note (children.map fun c => (c.1, c.2.note)))) ::
        (c.cells ++ (l ++ r').flatMap fun c => c.2.cells)) := by
    intro c
    rw [Art.cells_inner, hnotes, hset]
    simp only [flatMap_append, flatMap_cons]
    exact List.Perm.cons _ (perm_append_comm_assoc _ _ _)
  have hnode := hcells child
  rw [hself] at hnode
  refine (ends_rewire (fun n => .inner kind (SortedAssoc.set byte n
    (children.map fun c => (c.1, c.2.note)))) (hown.perm hnode) (fun f₁ n hheld => ?_) hr).mono
    (fun r'' f₂ h => ?_) fun _ _ h => h
  · rw [hnotes, hself] at hheld ⊢
    exact ends_innerUpdateChild hheld
      (by rw [SortedAssoc.find_map, hfind, Option.map_some])
  · cases o with
    | crossing guid depth =>
      obtain ⟨rfl, at', bytes', rfl, hmem⟩ := h
      refine ⟨rfl, at', bytes', rfl, hnode.mem_iff.mpr ?_⟩
      exact mem_cons_of_mem _ (mem_append_left _ hmem)
    | kept => exact h
    | made u =>
      obtain ⟨c', d, rfl, hplain, htombs, hchange⟩ := h
      refine ⟨.inner off kind (SortedAssoc.set byte c' children), d, rfl, ?_, ?_, ?_⟩
      · rw [Art.plain, Art.plainAll_eq, Art.plainAll_eq, ← SortedAssoc.set_map, hplain]
      · have hsum : ∀ c : Art ℕ, (Art.inner off kind (SortedAssoc.set byte c children)).tombs =
            c.tombs + ((l ++ r').flatMap fun c => c.2.leaves).countP fun l => l.tombstone := by
          intro c
          rw [Art.tombs, Art.leaves_inner, hset]
          simp only [flatMap_append, flatMap_cons, countP_append, Art.tombs]
          omega
        have hchild := hsum child
        rw [hself] at hchild
        rw [hsum c', hchild]
        omega
      · exact hchange.perm hnode.symm (hcells c').symm

end Inner

/-- An insert step does to the frame what `Tree.insert` does to the tree. -/
theorem insertAtStep_spec (t : Art ℕ) {path : List Byte} (hf : f.header.Bounded)
    (hown : Owns f.space t.cells) (hwf : t.Wf path) :
    Ends (insertAtStep p depth t) f (Stepped p depth t f) (Refused p depth t f) := by
  -- one child is entered, and the node follows it if it moves
  induction t generalizing path depth with
  | emptyRoot off =>
    rw [insertAtStep]
    exact ends_map ((insertIntoEmptyRoot_spec hf hown).mono (fun _ _ h => h) fun _ _ h => .inl h)
  | leaf off l =>
    rw [insertAtStep]
    exact ends_map (insertIntoLeaf_spec hf hown)
  | prefixNode off bytes child ih =>
    rw [insertAtStep]
    refine ends_ite (fun hall => ?_) (fun hall => ends_map (splitPrefixNode_spec hf hown hall))
    have hinsert : ∀ o, Tree.insert p (depth + bytes.length) child.plain = o →
        Tree.insert p depth (Art.prefixNode off bytes child).plain =
          o.map (Outcome.map (.prefixNode () bytes)) := by
      rintro o rfl
      rw [Art.plain, Tree.insert, if_pos hall]
    refine Ends.bind ((ih (hown.sublist (sublist_cons_self _ _)) hwf.2.2).mono
      (fun _ _ h => h) ?_) ?_
    · rintro e f' (hfail | ⟨herr, rfl⟩)
      · exact .inl hfail
      · exact .inr ⟨hinsert _ herr, rfl⟩
    rintro r f₁ ⟨o, ho, hr⟩
    have hown' : Owns f.space ((off, Body.prefixNode bytes child.note) :: (child.cells ++ [])) := by
      rw [append_nil]
      exact hown
    refine (ends_rewire (Body.prefixNode bytes) hown'
      (fun f₁ n hheld => ends_setPrefixChild hheld) hr).mono (fun r' f₂ h => ?_) fun _ _ h => h
    refine ⟨_, hinsert _ ho, ?_⟩
    cases o with
    | crossing guid depth =>
      obtain ⟨rfl, at', bytes', rfl, hmem⟩ := h
      exact ⟨rfl, at', bytes', rfl, mem_cons_of_mem _ hmem⟩
    | kept => exact h
    | made u =>
      obtain ⟨c', d, rfl, hplain, htombs, hchange⟩ := h
      rw [append_nil, append_nil] at hchange
      exact ⟨.prefixNode off bytes c', d, rfl, by rw [Art.plain, hplain], htombs, hchange⟩
  | inner off kind children ih =>
    rw [insertAtStep]
    cases hbyte : SearchKey.byteAt p.key depth with
    | none =>
      refine ends_throw (.inr ⟨?_, rfl⟩)
      rw [Art.plain, Tree.insert, hbyte]
    | some byte =>
      obtain ⟨hlen, hinc, hall⟩ := hwf
      simp only [insertAtChild_eq]
      cases hfind : find byte children with
      | none => exact addLeaf_spec hf hown hlen hbyte hfind
      | some child =>
        have hmem := SortedAssoc.mem_of_find hfind
        have hinsert : ∀ o, Tree.insert p (depth + 1) child.plain = o →
            Tree.insert p depth (Art.inner off kind children).plain =
              o.map (Outcome.map fun t => .inner () kind
                (SortedAssoc.set byte t (Art.plainAll children))) := by
          rintro o rfl
          simp only [Art.plain, Tree.insert, hbyte, Tree.insertChild_eq, Art.plainAll_eq,
            SortedAssoc.find_map, hfind, Option.map_some]
        have hchild : Owns f.space child.cells := by
          refine (hown.sublist (sublist_cons_self _ _)).sublist ?_
          rw [Art.cellsAll_eq, flatMap_def]
          exact sublist_flatten_of_mem (List.mem_map_of_mem (f := fun c => c.2.cells) hmem)
        refine Ends.bind ((ih _ hmem hchild (Art.wfAll_iff.mp hall _ hmem)).mono
          (fun _ _ h => h) ?_) ?_
        · rintro e f' (hfail | ⟨herr, rfl⟩)
          · exact .inl hfail
          · exact .inr ⟨hinsert _ herr, rfl⟩
        · rintro r f₁ ⟨o, ho, hr⟩
          exact (rewireInner_spec hown hinc hfind hr).mono
            (fun r' f₂ h => ⟨_, hinsert _ ho, h⟩) fun _ _ h => h
  | blobNode off bytes guid =>
    rw [insertAtStep]
    exact blobNodeInsertStep_spec hf hown

/-! ## A round in one blob -/

/-- The header apart from what an insert that goes through may move. -/
def Header.identity (h : Header) : Header := { h.fixed with root := 0 }

/-- What a round has done to the frame. -/
def Inserted (t : Art ℕ) (f : Frame) : Outcome → InsertStep → Frame → Prop
  | .crossing guid depth, r, f' => f' = f ∧ ∃ off bytes, r = .crossing ⟨guid, depth, off⟩ ∧
      (off, Body.blobNode bytes guid) ∈ t.cells
  | .kept, r, f' => f' = f ∧ r = .done ⟨t.note, false⟩
  | .made u, r, f' => ∃ (t' : Art ℕ) (d : ℕ), r = .done ⟨t'.note, true⟩ ∧ t'.plain = u ∧
      f'.Holds t' ∧ t'.tombs + d = t.tombs ∧
      f'.header.tombstoneLeafCnt = f.header.tombstoneLeafCnt - d ∧
      f'.header.identity = f.header.identity

/-- The sentinel is replaced by an insert that changes the empty tree. -/
private lemma no_sentinel {u : Tree} {t' : Art ℕ} (hinsert : Tree.insert p depth
    (Art.emptyRoot dataAreaStart).plain = .ok (.made u)) (hplain : t'.plain = u) :
    ∀ c ∈ t'.cells, c.2.ntype ≠ .emptyRoot := by
  rw [Art.plain, Tree.insert, Except.ok.injEq] at hinsert
  split_ifs at hinsert
  obtain rfl := Outcome.made.inj hinsert
  cases t' with
  | leaf off l =>
    intro c hc
    obtain rfl := mem_singleton.mp hc
    exact fun h => by cases h
  | emptyRoot | prefixNode | inner | blobNode => simp [Art.plain] at hplain

/-- A round in a frame that holds a tree. -/
theorem insertInBlob_spec {path : List Byte} (h : f.Holds t) (hwf : t.Wf path) :
    Ends (insertInBlob p depth) f
      (fun r f' => ∃ o, Tree.insert p depth t.plain = .ok o ∧ Inserted t f o r f')
      (Refused p depth t f) := by
  unfold insertInBlob
  refine ends_get_bind ?_
  simp only [h.placed]
  refine Ends.bind (insertAtStep_spec t h.bounded h.owns hwf) ?_
  rintro r f₁ ⟨o, ho, hr⟩
  cases o with
  | crossing guid depth =>
    obtain ⟨rfl, off, bytes, rfl, hmem⟩ := hr
    exact ends_pure ⟨_, ho, rfl, off, bytes, rfl, hmem⟩
  | kept =>
    obtain ⟨rfl, rfl⟩ := hr
    exact ends_pure ⟨_, ho, rfl, rfl⟩
  | made u =>
    obtain ⟨t', d, rfl, hplain, htombs, hchange⟩ := hr
    refine ends_modify_bind (ends_pure ⟨_, ho, t', d, rfl, hplain, ?_, htombs, hchange.tombs, ?_⟩)
    · exact h.changed hchange fun hsentinel => .inr (no_sentinel (hsentinel ▸ ho) hplain)
    · exact congrArg (fun h : Header => { h with root := 0 }) hchange.fixed

/-- An insert that runs out of space or slots leaves the frame well formed with the tree it had:
its live records and its edges are those before. -/
theorem insert_failure_invisible {path : List Byte} {a : AllocError} (hf : f.WellFormed path)
    (hrun : exec (insertInBlob p path.length) f = (.error (.alloc a), f')) :
    f'.WellFormed path ∧ f'.tree = f.tree := by
  obtain ⟨t, hholds, hwf⟩ := hf
  have hkept : f'.Holds t := by
    rcases (insertInBlob_spec hholds hwf).of_error hrun with hfail | ⟨-, rfl⟩
    · exact hholds.failed hfail.2
    · exact hholds
  exact ⟨⟨t, hkept, hwf⟩, hkept.tree.trans hholds.tree.symm⟩

/-- A frame with one leaf, in which twenty-four bytes are left. -/
def nearlyFull (guid : Guid) : Frame where
  header := { Header.init guid with
    numSlots := 2, root := dataAreaStart + 8, spaceUsed := pageSize - spilloverReservation - 24 }
  heap := Arena.write (fun _ => none) (dataAreaStart + 8) (.leaf (.fresh [97] [1] 1))

lemma nearlyFull_wellFormed (guid : Guid) : (nearlyFull guid).WellFormed [] := by
  refine ⟨.leaf (dataAreaStart + 8) (.fresh [97] [1] 1), ?_, ?_⟩
  · constructor
    case bounded => constructor <;> simp [nearlyFull, dataAreaStart, pageSize, maxSlots,
      spilloverReservation]
    case root => rfl
    case owns =>
      constructor
      · intro c hc
        obtain rfl := mem_singleton.mp hc
        exact Arena.write_same (fun _ => none) (dataAreaStart + 8) (Body.leaf (.fresh [97] [1] 1))
      · exact pairwise_singleton _ _
      · intro c hc n hlo hhi hn
        obtain rfl := mem_singleton.mp hc
        have hstop : stop (dataAreaStart + 8, Body.leaf (.fresh [97] [1] 1)) = 45088 := by decide
        have hused : pageSize - spilloverReservation - 24 ≤ n := hn
        rw [hstop] at hhi
        simp only [pageSize, spilloverReservation] at hused
        omega
    case sentinel =>
      refine .inr ⟨fun c hc => ?_, Nat.one_lt_two⟩
      obtain rfl := mem_singleton.mp hc
      exact ⟨le_rfl, by decide⟩
    case routed => exact fun h => absurd rfl h
  · exact ⟨List.nil_prefix, ⟨[97], rfl, .inr rfl⟩, by decide, by decide⟩

/-- The leaf of a second key fits, the node above the two does not. -/
theorem insert_failure_invisible_nearlyFull :
    let f := nearlyFull ⟨List.replicate 16 0, rfl⟩
    let run := exec (insertInBlob ⟨[98], [], 2, .always⟩ 0) f
    run.1 = .error (.alloc (.outOfSpace 16 0)) ∧ run.2.header.numSlots = 3 ∧
      run.2.WellFormed [] ∧ run.2.tree = f.tree := by
  intro f run
  have hrun : run.1 = .error (.alloc (.outOfSpace 16 0)) := by decide +kernel
  have hslots : run.2.header.numSlots = 3 := by decide +kernel
  have hwhole : exec (insertInBlob ⟨[98], [], 2, .always⟩ ([] : List Byte).length) f =
      (.error (.alloc (.outOfSpace 16 0)), run.2) := by
    rw [← hrun]
    exact (Prod.eta run).symm
  exact ⟨hrun, hslots, insert_failure_invisible (nearlyFull_wellFormed _) hwhole⟩

end Holt.Engine
