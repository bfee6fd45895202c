import Holt.Engine.Frame

/-!
# The blobs of a store

A tree that has outgrown a frame goes on in other frames: a blob node names the frame, by its
guid, where the keys through it are.  The buffer manager resolves guids; the model keeps of it the
frame each guid stands for, which frames are dirty and since which sequence number, and the epoch
that new frames are stamped with.

`Reaches` is what a reader can find from a frame: the live leaves of its tree, and what it reaches
in the frames that the tree's edges lead to.
-/

namespace Holt.Engine

open List
open Store (Guid)

/-- The blobs that the buffer manager has. -/
structure Pool where
  frames : Guid → Option Frame
  dirty : Guid → Option ℕ
  currentEpoch : ℕ

namespace Pool

/-- The dirty entry of a blob after a write: the lowest sequence number. -/
def markDirty (pool : Pool) (guid : Guid) (seq : ℕ) : Pool :=
  { pool with
    dirty := Function.update pool.dirty guid (some ((pool.dirty guid).elim seq (min · seq))) }

/-- `install_new_blob`. -/
def installNewBlob (pool : Pool) (guid : Guid) (f : Frame) (seq : ℕ) : Pool :=
  { pool with
    frames := Function.update pool.frames guid
      (some { f with header := { f.header with createdEpoch := pool.currentEpoch } }) }.markDirty
    guid seq

end Pool

/-! ## Edges -/

variable {α : Type} {t : Art α} {path path' : List Byte}

/-- The frames that the edges of a tree lead to. -/
def Art.refs (t : Art α) : List Guid := (t.edges []).map Prod.snd

lemma Art.snd_edges (t : Art α) (path path' : List Byte) :
    (t.edges path).map Prod.snd = (t.edges path').map Prod.snd := by
  induction t generalizing path path' with
  | emptyRoot | leaf | blobNode => rfl
  | prefixNode note bytes child ih => exact ih _ _
  | inner note kind children ih =>
    rw [edges_inner, edges_inner, map_flatMap, map_flatMap]
    exact flatMap_congr fun c hc => ih c hc _ _

lemma Art.mem_refs {guid : Guid} : guid ∈ t.refs ↔ ∃ p, (p, guid) ∈ t.edges path := by
  unfold Art.refs
  rw [t.snd_edges [] path]
  simp

/-- The frames that a frame leads to. -/
def Frame.refs (f : Frame) : List Guid := f.tree.elim [] Art.refs

lemma Frame.refs_eq {f : Frame} {t : Tree} (h : f.tree = some t) : f.refs = t.refs := by
  rw [Frame.refs, h]
  rfl

/-! ## What can be reached -/

/-- A live leaf can be reached from a tree. -/
inductive Reaches (frames : Guid → Option Frame) : Tree → List Byte → Leaf → Prop
  | here {t : Tree} {path : List Byte} {l : Leaf} (hl : l ∈ t.live) : Reaches frames t path l
  | through {t t' : Tree} {f : Frame} {path p : List Byte} {guid : Guid} {l : Leaf}
      (he : (p, guid) ∈ t.edges path) (hf : frames guid = some f) (ht : f.tree = some t')
      (hr : Reaches frames t' p l) : Reaches frames t path l

/-- A live leaf can be reached from a frame. -/
def Frame.Reaches (frames : Guid → Option Frame) (f : Frame) (path : List Byte) (l : Leaf) : Prop :=
  ∃ t, f.tree = some t ∧ Engine.Reaches frames t path l

variable {frames frames' : Guid → Option Frame} {f : Frame} {l : Leaf} {guid : Guid}
  {t t' tc : Tree} {v : List Byte} {rest : List (List Byte × Guid)}

lemma Frame.reaches_iff (h : f.tree = some t) :
    f.Reaches frames path l ↔ Engine.Reaches frames t path l := by
  constructor
  · rintro ⟨t₁, ht₁, hr⟩
    cases h.symm.trans ht₁
    exact hr
  · exact fun hr => ⟨t, h, hr⟩

/-- What can be reached depends only on the frames that can be. -/
lemma Reaches.congr (h : Reaches frames t path l) (hsame : ∀ g ∈ t.refs, frames g = frames' g)
    (hfurther : ∀ g f, frames g = some f → ∀ g' ∈ f.refs, frames g' = frames' g') :
    Reaches frames' t path l := by
  induction h with
  | here hl => exact .here hl
  | through he hf ht _ ih =>
    refine .through he ((hsame _ (Art.mem_refs.mpr ⟨_, he⟩)).symm.trans hf) ht (ih ?_)
    rw [← Frame.refs_eq ht]
    exact hfurther _ _ hf

/-- Nothing leads to a guid. -/
def Unused (frames : Guid → Option Frame) (guid : Guid) : Prop :=
  frames guid = none ∧ ∀ g f, frames g = some f → guid ∉ f.refs

/-- A frame that nothing refers to changes nothing. -/
lemma reaches_update_iff (hunused : Unused frames guid) (hnew : guid ∉ t.refs) (child : Frame) :
    Reaches (Function.update frames guid (some child)) t path l ↔ Reaches frames t path l := by
  have hsame : ∀ g, g ≠ guid → Function.update frames guid (some child) g = frames g :=
    fun g hg => Function.update_of_ne hg _ _
  constructor
  · intro h
    -- the new frame is not on the way, so its edges do not matter
    induction h with
    | here hl => exact .here hl
    | @through _ _ _ _ _ g _ he hf ht _ ih =>
      rw [hsame g fun heq => hnew (heq ▸ Art.mem_refs.mpr ⟨_, he⟩)] at hf
      refine .through he hf ht (ih ?_)
      rw [← Frame.refs_eq ht]
      exact hunused.2 _ _ hf
  · intro h
    refine h.congr (fun g hg => ?_) fun g f' hf g' hg' => ?_
    · exact (hsame g fun heq => hnew (heq ▸ hg)).symm
    · exact (hsame g' fun heq => hunused.2 g f' hf (heq ▸ hg')).symm

/-- A tree with an edge to a part of it reaches what the whole tree reaches. -/
lemma reaches_split_iff (hf : frames guid = some f) (htc : f.tree = some tc)
    (hlive : t.live.Perm (tc.live ++ t'.live))
    (hedges : (t.edges path).Perm (tc.edges v ++ rest))
    (hedges' : (t'.edges path).Perm ((v, guid) :: rest)) :
    Reaches frames t' path l ↔ Reaches frames t path l := by
  have hentry : (v, guid) ∈ t'.edges path := hedges'.mem_iff.mpr mem_cons_self
  constructor
  · intro h
    cases h with
    | here hl => exact .here (hlive.mem_iff.mpr (mem_append_right _ hl))
    | through he hf₁ ht₁ hr =>
      rcases mem_cons.mp (hedges'.mem_iff.mp he) with heq | hrest
      · cases heq
        cases hf.symm.trans hf₁
        cases htc.symm.trans ht₁
        cases hr with
        | here hl => exact .here (hlive.mem_iff.mpr (mem_append_left _ hl))
        | through he hf₂ ht₂ hr =>
          exact .through (hedges.mem_iff.mpr (mem_append_left _ he)) hf₂ ht₂ hr
      · exact .through (hedges.mem_iff.mpr (mem_append_right _ hrest)) hf₁ ht₁ hr
  · intro h
    cases h with
    | here hl =>
      rcases mem_append.mp (hlive.mem_iff.mp hl) with hl | hl
      · exact .through hentry hf htc (.here hl)
      · exact .here hl
    | through he hf₁ ht₁ hr =>
      rcases mem_append.mp (hedges.mem_iff.mp he) with he | he
      · exact .through hentry hf htc (.through he hf₁ ht₁ hr)
      · exact .through (hedges'.mem_iff.mpr (mem_cons_of_mem _ he)) hf₁ ht₁ hr

end Holt.Engine
