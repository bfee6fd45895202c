import Holt.Store.BufferCache

/-!
# The life of a frame detached under snapshots

While snapshots are live a frame that leaves the tree may still be read through them.  The
buffer manager records such a frame with the closed interval of epochs that can see it: from the
epoch it was created in (zero for a structural merge) to the newest snapshot live when it was
detached.  The record is staged under the parent whose edge was rewritten, published when that
parent is marked dirty, and then either waits for the newest live epoch in its interval or enters
the queue of retired orphans; when an epoch retires, its waiters are considered again.

`publish_parent_orphans` takes the staged records out and queues them under a second lock, so
`publishing` holds what is between the two.  `taken` holds the batches that
`prune_unpersisted_orphans` or a reclaim has popped from the queue and will free or put back.
`retired_orphan_set` is the set of the queue's members and is not kept apart.

`tree` and `created` stand for the tree itself: which frames are in it, and the epoch each was
created in.  GUIDs are random and never used again.  `detached`, `published`, `entered` and
`freed` are a history: the frames that left the tree, each with the epochs live at that moment,
the published records, those `queue_orphan` put into the queue, and those that left it for good.
-/

namespace Holt
namespace Store
namespace Snapshots

open List

variable {γ : Type} [DecidableEq γ]

structure SnapshotOrphan (γ : Type) where
  guid : γ
  firstEpoch : ℕ
  lastEpoch : ℕ
  dirtySeq : ℕ
deriving DecidableEq

/-- `SnapshotState` with the counters beside it, and the history. -/
structure Registry (γ : Type) where
  currentEpoch : ℕ
  forkBarrier : ℕ
  /-- The live epochs in order, each with its number of holders. -/
  live : List (ℕ × ℕ)
  /-- Staged records by parent. -/
  pending : List (γ × SnapshotOrphan γ)
  /-- Records by the epoch they wait for. -/
  waiting : List (ℕ × SnapshotOrphan γ)
  retiredOrphans : List γ
  dirty : γ → Option ℕ
  publishing : List (γ × List (SnapshotOrphan γ))
  taken : List (List γ)
  tree : List γ
  created : γ → ℕ
  used : List γ
  detached : List (SnapshotOrphan γ × List ℕ)
  published : List (SnapshotOrphan γ)
  entered : List (SnapshotOrphan γ)
  freed : List γ

inductive Action (γ : Type)
  /-- A coordinated capture of several roots. -/
  | register (count : ℕ)
  /-- A GC pass pins the roots of all live snapshots. -/
  | pinRoots
  | retire (epoch : ℕ)
  /-- A new frame under a fresh GUID. -/
  | grow (guid : γ) (seq : ℕ)
  /-- `fork_child_if_shared` forks `child` to `fork`. -/
  | fork (parent child fork : γ)
  /-- A structural merge folds `child` into `parent`. -/
  | unlink (parent child : γ)
  | markDirty (guid : γ) (seq : ℕ)
  /-- The second half of `publish_parent_orphans`. -/
  | queuePublished (i : ℕ)
  | takeRetired (limit : ℕ)
  /-- A taken batch is done: what is not freed is put back. -/
  | settleTaken (i : ℕ) (kept : List γ)
deriving DecidableEq

def Registry.liveEpochs (s : Registry γ) : List ℕ := s.live.map Prod.fst

/-- The newest live epoch, or zero. -/
def Registry.newestEpoch (s : Registry γ) : ℕ := s.liveEpochs.getLast?.getD 0

/-- `register_snapshots`: the whole interval of epochs is reserved first, and never `u64::MAX`. -/
def registerSnapshots (s : Registry γ) (count : ℕ) : Registry γ :=
  if count ≠ 0 ∧ s.currentEpoch + count < 2 ^ 64 - 1 then
    { s with
      currentEpoch := s.currentEpoch + count
      live := s.live ++ (List.range count).map (fun i => (s.currentEpoch + i, 1))
      forkBarrier := s.currentEpoch + count - 1 }
  else s

/-- The newest live epoch in the interval of an orphan. -/
def protector (s : Registry γ) (orphan : SnapshotOrphan γ) : Option ℕ :=
  if orphan.firstEpoch ≤ orphan.lastEpoch then
    (s.liveEpochs.filter
      (fun e => decide (orphan.firstEpoch ≤ e ∧ e ≤ orphan.lastEpoch))).getLast?
  else none

/-- `queue_orphan`. -/
def queueOrphan (s : Registry γ) (orphan : SnapshotOrphan γ) : Registry γ :=
  match protector s orphan with
  | some epoch => { s with waiting := s.waiting ++ [(epoch, orphan)] }
  | none =>
    if orphan.guid ∈ s.retiredOrphans then s
    else { s with
      retiredOrphans := s.retiredOrphans ++ [orphan.guid]
      entered := s.entered ++ [orphan] }

/-- `retire_snapshot`: the last holder removes the epoch. -/
def retireSnapshot (s : Registry γ) (epoch : ℕ) : Registry γ :=
  match s.live.find? (fun r => r.1 = epoch) with
  | none => s
  | some (_, holders) =>
    if 1 < holders then
      { s with live := s.live.map (fun r => if r.1 = epoch then (r.1, r.2 - 1) else r) }
    else
      let rest := { s with live := s.live.filter (fun r => r.1 ≠ epoch) }
      ((s.waiting.filter (fun w => w.1 = epoch)).map Prod.snd).foldl queueOrphan
        { rest with
          forkBarrier := rest.newestEpoch
          waiting := s.waiting.filter (fun w => w.1 ≠ epoch) }

/-- `stage_snapshot_orphan`, as the frame leaves the tree. -/
def stageSnapshotOrphan (s : Registry γ) (parent guid : γ) (firstEpoch : ℕ) : Registry γ :=
  let orphan : SnapshotOrphan γ :=
    ⟨guid, firstEpoch, s.newestEpoch, (s.dirty guid).getD structuralSeq⟩
  { s with
    pending := if s.pending.any (fun p => decide (p.1 = parent ∧ p.2.guid = guid)) then s.pending
      else s.pending ++ [(parent, orphan)]
    tree := s.tree.filter (fun g => g ≠ guid)
    detached := s.detached ++ [(orphan, s.liveEpochs)] }

/-- `install_new_blob`: the frame is stamped with the current epoch. -/
def installNewBlob (s : Registry γ) (guid : γ) (seq : ℕ) : Registry γ :=
  { s with
    tree := guid :: s.tree
    used := guid :: s.used
    created := Function.update s.created guid s.currentEpoch
    dirty := mergeSeq s.dirty guid seq }

/-- `mark_dirty` with the first half of `publish_parent_orphans`. -/
def markDirty (s : Registry γ) (guid : γ) (seq : ℕ) : Registry γ :=
  let orphans := (s.pending.filter (fun p => p.1 = guid)).map Prod.snd
  { s with
    dirty := mergeSeq s.dirty guid seq
    pending := s.pending.filter (fun p => p.1 ≠ guid)
    publishing := if orphans = [] then s.publishing else s.publishing ++ [(guid, orphans)] }

/-- The debt of the detached images passes to the parent, then each record is queued. -/
def queuePublished (s : Registry γ) (parent : γ) (orphans : List (SnapshotOrphan γ)) :
    Registry γ :=
  let seq := (orphans.map SnapshotOrphan.dirtySeq).foldl min structuralSeq
  orphans.foldl queueOrphan { s with
    dirty := if seq ≠ structuralSeq then mergeSeq s.dirty parent seq else s.dirty
    published := s.published ++ orphans }

/-- `restore_retired_orphans`. -/
def restoreRetired (queue : List γ) (guids : List γ) : List γ :=
  guids.foldl (fun q g => if g ∈ q then q else q ++ [g]) queue

def step (s : Registry γ) : Action γ → Option (Registry γ)
  | .register count => some (registerSnapshots s count)
  | .pinRoots => some { s with live := s.live.map (fun r => (r.1, r.2 + 1)) }
  | .retire epoch => some (retireSnapshot s epoch)
  | .grow guid seq => if guid ∈ s.used then none else some (installNewBlob s guid seq)
  | .fork parent child fork =>
    -- a frame no live snapshot can see is changed in place
    if child ∈ s.tree ∧ fork ∉ s.used ∧ s.forkBarrier ≠ 0 ∧ s.created child ≤ s.forkBarrier then
      some (stageSnapshotOrphan (installNewBlob s fork ((s.dirty child).getD structuralSeq))
        parent child (s.created child))
    else none
  | .unlink parent child =>
    if child ∈ s.tree then some (stageSnapshotOrphan s parent child 0) else none
  | .markDirty guid seq => some (markDirty s guid seq)
  | .queuePublished i =>
    match s.publishing[i]? with
    | some (parent, orphans) =>
      some (queuePublished { s with publishing := s.publishing.eraseIdx i } parent orphans)
    | none => none
  | .takeRetired limit => some { s with
      taken := s.taken ++ [s.retiredOrphans.take limit]
      retiredOrphans := s.retiredOrphans.drop limit }
  | .settleTaken i kept =>
    match s.taken[i]? with
    | some batch => some { s with
        taken := s.taken.eraseIdx i
        retiredOrphans := restoreRetired s.retiredOrphans (batch.filter (fun g => g ∈ kept))
        freed := s.freed ++ batch.filter (fun g => g ∉ kept) }
    | none => none

/-- A store just opened at a durable epoch, with the frames of its tree. -/
def Registry.open (epoch : ℕ) (tree : List γ) (created : γ → ℕ) : Registry γ where
  currentEpoch := max epoch 1
  forkBarrier := 0
  live := []
  pending := []
  waiting := []
  retiredOrphans := []
  dirty := fun _ => none
  publishing := []
  taken := []
  tree := tree
  created := created
  used := tree
  detached := []
  published := []
  entered := []
  freed := []

/-! ## Queueing -/

section Queue

variable {s : Registry γ} {orphan : SnapshotOrphan γ}

/-- The epoch lies in the interval of the orphan. -/
def SnapshotOrphan.SeenAt (orphan : SnapshotOrphan γ) (epoch : ℕ) : Prop :=
  orphan.firstEpoch ≤ epoch ∧ epoch ≤ orphan.lastEpoch

omit [DecidableEq γ] in
lemma protector_some {epoch : ℕ} (h : protector s orphan = some epoch) :
    epoch ∈ s.liveEpochs ∧ orphan.SeenAt epoch := by
  simp only [protector, Option.ite_none_right_eq_some] at h
  have hmem := mem_of_getLast? h.2
  simpa [SnapshotOrphan.SeenAt] using hmem

omit [DecidableEq γ] in
lemma protector_none (h : protector s orphan = none) :
    ∀ e ∈ s.liveEpochs, ¬ orphan.SeenAt e := by
  rintro e he ⟨hfirst, hlast⟩
  rw [protector, if_pos (hfirst.trans hlast), getLast?_eq_none_iff] at h
  have hmem : e ∈ s.liveEpochs.filter
      (fun e => decide (orphan.firstEpoch ≤ e ∧ e ≤ orphan.lastEpoch)) := by
    simp [he, hfirst, hlast]
  rw [h] at hmem
  exact absurd hmem not_mem_nil

/-- Queueing new records: each comes to wait for a live epoch that sees it, or enters the queue
with no such epoch. -/
lemma queueOrphan_foldl (s : Registry γ) (orphans : List (SnapshotOrphan γ))
    (hnew : (s.retiredOrphans ++ orphans.map SnapshotOrphan.guid).Nodup) :
    ∃ waiting entered, orphans.foldl queueOrphan s = { s with
        waiting := s.waiting ++ waiting
        entered := s.entered ++ entered
        retiredOrphans := s.retiredOrphans ++ entered.map SnapshotOrphan.guid } ∧
      (waiting.map Prod.snd ++ entered).Perm orphans ∧
      (∀ w ∈ waiting, w.1 ∈ s.liveEpochs ∧ w.2.SeenAt w.1) ∧
      ∀ o ∈ entered, ∀ e ∈ s.liveEpochs, ¬ o.SeenAt e := by
  induction orphans generalizing s with
  | nil => exact ⟨[], [], by simp, .refl _, by simp, by simp⟩
  | cons o orphans ih =>
    rw [map_cons, nodup_middle, nodup_cons] at hnew
    obtain ⟨hfresh, hnew⟩ := hnew
    rw [foldl_cons]
    cases hp : protector s o with
    | some epoch =>
      have hqueue : queueOrphan s o = { s with waiting := s.waiting ++ [(epoch, o)] } := by
        simp only [queueOrphan, hp]
      obtain ⟨waiting, entered, heq, hperm, hwaits, hclear⟩ :=
        ih { s with waiting := s.waiting ++ [(epoch, o)] } hnew
      refine ⟨(epoch, o) :: waiting, entered, ?_, hperm.cons o, ?_, hclear⟩
      · rw [hqueue, heq]
        simp
      · exact forall_mem_cons.mpr ⟨protector_some hp, hwaits⟩
    | none =>
      have hqueue : queueOrphan s o = { s with
          retiredOrphans := s.retiredOrphans ++ [o.guid]
          entered := s.entered ++ [o] } := by
        simp only [queueOrphan, hp]
        rw [if_neg (fun h => hfresh (mem_append_left _ h))]
      have hnew' : (s.retiredOrphans ++ [o.guid] ++ orphans.map SnapshotOrphan.guid).Nodup := by
        rw [append_assoc, singleton_append, nodup_middle, nodup_cons]
        exact ⟨hfresh, hnew⟩
      obtain ⟨waiting, entered, heq, hperm, hwaits, hclear⟩ := ih { s with
        retiredOrphans := s.retiredOrphans ++ [o.guid]
        entered := s.entered ++ [o] } hnew'
      refine ⟨waiting, o :: entered, ?_, ?_, hwaits, ?_⟩
      · rw [hqueue, heq]
        simp
      · exact perm_middle.trans (hperm.cons o)
      · exact forall_mem_cons.mpr ⟨protector_none hp, hclear⟩

end Queue

/-! ## The invariant -/

section Invariant

variable {s s' : Registry γ}

/-- The invariant while the records `todo` are between the lists. -/
structure InvWith (todo : List (SnapshotOrphan γ)) (s : Registry γ) : Prop where
  ascending : s.liveEpochs.Pairwise (· < ·)
  epochs : ∀ e ∈ s.liveEpochs, 1 ≤ e ∧ e < s.currentEpoch
  positive : 1 ≤ s.currentEpoch
  once : (s.detached.map (fun d => d.1.guid)).Nodup
  gone : ∀ d ∈ s.detached, d.1.guid ∈ s.used ∧ d.1.guid ∉ s.tree
  grown : ∀ g ∈ s.tree, g ∈ s.used
  /-- Among the live epochs, those up to an orphan's last one are those it was detached under. -/
  stamps : ∀ d ∈ s.detached, d.1.lastEpoch < s.currentEpoch ∧ (∀ e ∈ d.2, e < s.currentEpoch) ∧
    ∀ e ∈ s.liveEpochs, e ≤ d.1.lastEpoch ↔ e ∈ d.2
  staged : (s.pending.map Prod.snd ++ (s.publishing.map Prod.snd).flatten ++ s.published).Perm
    (s.detached.map Prod.fst)
  queued : (s.waiting.map Prod.snd ++ s.entered ++ todo).Perm s.published
  waits : ∀ w ∈ s.waiting, w.1 ∈ s.liveEpochs ∧ w.2.SeenAt w.1
  clear : ∀ o ∈ s.entered, ∀ e ∈ s.liveEpochs, ¬ o.SeenAt e
  kept : (s.entered.map SnapshotOrphan.guid).Perm
    (s.retiredOrphans ++ s.taken.flatten ++ s.freed)

abbrev Inv (s : Registry γ) : Prop := InvWith [] s

omit [DecidableEq γ] in
lemma inv_open (epoch : ℕ) (tree : List γ) (created : γ → ℕ) :
    Inv (Registry.open epoch tree created) := by
  constructor <;> simp [Registry.open, Registry.liveEpochs]

variable {todo : List (SnapshotOrphan γ)}

omit [DecidableEq γ] in
lemma InvWith.nodup_published (inv : InvWith todo s) :
    (s.published.map SnapshotOrphan.guid).Nodup := by
  have hall := inv.staged.map SnapshotOrphan.guid
  rw [List.map_map] at hall
  have hnodup := hall.nodup_iff.mpr inv.once
  rw [map_append, nodup_append] at hnodup
  exact hnodup.2.1

omit [DecidableEq γ] in
lemma InvWith.nodup_entered (inv : InvWith todo s) :
    ((s.entered ++ todo).map SnapshotOrphan.guid).Nodup := by
  have hnodup := (inv.queued.map SnapshotOrphan.guid).nodup_iff.mpr inv.nodup_published
  rw [append_assoc, map_append, nodup_append] at hnodup
  exact hnodup.2.1

omit [DecidableEq γ] in
/-- The members of the queue, and those taken from it, are distinct. -/
lemma InvWith.nodup_kept (inv : InvWith todo s) :
    (s.retiredOrphans ++ s.taken.flatten ++ s.freed).Nodup := by
  refine inv.kept.nodup_iff.mp ?_
  have hnodup := inv.nodup_entered
  rw [map_append, nodup_append] at hnodup
  exact hnodup.1

lemma InvWith.queueAll (inv : InvWith todo s) : Inv (todo.foldl queueOrphan s) := by
  have hnew : (s.retiredOrphans ++ todo.map SnapshotOrphan.guid).Nodup := by
    have hall := inv.nodup_entered
    rw [map_append] at hall
    have hperm := (inv.kept.append_right (todo.map SnapshotOrphan.guid)).nodup_iff.mp hall
    refine hperm.sublist (List.Sublist.append_right ?_ _)
    rw [append_assoc]
    exact sublist_append_left _ _
  obtain ⟨waiting, entered, heq, hperm, hwaits, hclear⟩ := queueOrphan_foldl s todo hnew
  rw [heq]
  refine { inv with queued := ?_, waits := ?_, clear := ?_, kept := ?_ }
  · refine List.Perm.trans ?_ inv.queued
    rw [perm_iff_count] at hperm ⊢
    intro o
    have ho := hperm o
    simp only [map_append, count_append, count_nil] at ho ⊢
    omega
  · intro w hw
    exact (mem_append.mp hw).elim (inv.waits w) (hwaits w)
  · intro o ho
    exact (mem_append.mp ho).elim (inv.clear o) (hclear o)
  · have hkept := inv.kept
    rw [perm_iff_count] at hkept ⊢
    intro g
    have hg := hkept g
    simp only [map_append, count_append] at hg ⊢
    omega

omit [DecidableEq γ] in
lemma InvWith.detached_of_entered (inv : InvWith todo s) {o : SnapshotOrphan γ}
    (ho : o ∈ s.entered) : ∃ d ∈ s.detached, d.1 = o := by
  have hpublished : o ∈ s.published := inv.queued.mem_iff.mp (by simp [ho])
  have hdetached : o ∈ s.detached.map Prod.fst := inv.staged.mem_iff.mp (by simp [hpublished])
  exact List.mem_map.mp hdetached

lemma map_fst_dropHolder (epoch : ℕ) (live : List (ℕ × ℕ)) :
    (live.map fun r => if r.1 = epoch then (r.1, r.2 - 1) else r).map Prod.fst =
      live.map Prod.fst := by
  rw [List.map_map]
  refine map_congr_left fun r _ => ?_
  by_cases h : r.1 = epoch <;> simp [h]

omit [DecidableEq γ] in
lemma InvWith.setHolders (inv : InvWith todo s) {live : List (ℕ × ℕ)}
    (hlive : live.map Prod.fst = s.live.map Prod.fst) : InvWith todo { s with live := live } := by
  have hepochs : Registry.liveEpochs { s with live := live } = s.liveEpochs := hlive
  refine { inv with ascending := ?_, epochs := ?_, stamps := ?_, waits := ?_, clear := ?_ }
  all_goals rw [hepochs]
  exacts [inv.ascending, inv.epochs, inv.stamps, inv.waits, inv.clear]

variable (inv : Inv s)
include inv

omit [DecidableEq γ] in
lemma Inv.register (count : ℕ) : Inv (registerSnapshots s count) := by
  rw [registerSnapshots]
  split_ifs with hroom
  · have hepochs : Registry.liveEpochs { s with
        currentEpoch := s.currentEpoch + count
        live := s.live ++ (List.range count).map (fun i => (s.currentEpoch + i, 1))
        forkBarrier := s.currentEpoch + count - 1 } =
        s.liveEpochs ++ (List.range count).map (fun i => s.currentEpoch + i) := by
      simp [Registry.liveEpochs, Function.comp_def]
    -- the new epochs are newer than all that was there
    have hnew : ∀ e ∈ (List.range count).map (fun i => s.currentEpoch + i),
        s.currentEpoch ≤ e ∧ e < s.currentEpoch + count := by
      intro e he
      obtain ⟨i, hi, rfl⟩ := List.mem_map.mp he
      have hlt := mem_range.mp hi
      exact ⟨by omega, by omega⟩
    refine { inv with ascending := ?_, epochs := ?_, positive := ?_, stamps := ?_, waits := ?_,
                      clear := ?_ }
    · rw [hepochs, pairwise_append]
      refine ⟨inv.ascending, ?_, fun a ha b hb => ?_⟩
      · rw [pairwise_map]
        exact pairwise_lt_range.imp (fun h => by omega)
      · exact (inv.epochs a ha).2.trans_le (hnew b hb).1
    · rw [hepochs]
      intro e he
      have hpos := inv.positive
      rcases mem_append.mp he with he | he
      · obtain ⟨hone, hlt⟩ := inv.epochs e he
        exact ⟨hone, hlt.trans_le (Nat.le_add_right _ _)⟩
      · obtain ⟨hle, hlt⟩ := hnew e he
        exact ⟨hpos.trans hle, hlt⟩
    · exact inv.positive.trans (Nat.le_add_right _ _)
    · rw [hepochs]
      intro d hd
      obtain ⟨hlast, hlive, hiff⟩ := inv.stamps d hd
      refine ⟨hlast.trans_le (Nat.le_add_right _ _),
        fun e he => (hlive e he).trans_le (Nat.le_add_right _ _), fun e he => ?_⟩
      rcases mem_append.mp he with he | he
      · exact hiff e he
      · obtain ⟨hle, -⟩ := hnew e he
        constructor
        · intro h
          omega
        · intro h
          have hlt := hlive e h
          omega
    · rw [hepochs]
      intro w hw
      obtain ⟨hlive, hseen⟩ := inv.waits w hw
      exact ⟨mem_append_left _ hlive, hseen⟩
    · rw [hepochs]
      rintro o ho e he hseen
      rcases mem_append.mp he with he | he
      · exact inv.clear o ho e he hseen
      · obtain ⟨d, hd, rfl⟩ := inv.detached_of_entered ho
        have hlast := (inv.stamps d hd).1
        have hle := (hnew e he).1
        have hup := hseen.2
        omega
  · exact inv

lemma Inv.retire (epoch : ℕ) : Inv (retireSnapshot s epoch) := by
  rw [retireSnapshot]
  split
  case h_1 => exact inv
  case h_2 holders _ =>
    split_ifs
    · exact inv.setHolders (map_fst_dropHolder epoch s.live)
    · have hepochs : Registry.liveEpochs { s with
          live := s.live.filter (fun r => r.1 ≠ epoch) } =
          s.liveEpochs.filter (fun e => e ≠ epoch) := by
        simp [Registry.liveEpochs, List.filter_map, Function.comp_def]
      have hsub : ∀ e ∈ s.liveEpochs.filter (fun e => e ≠ epoch), e ∈ s.liveEpochs :=
        fun e he => mem_of_mem_filter he
      refine InvWith.queueAll { inv with ascending := ?_, epochs := ?_, stamps := ?_, queued := ?_,
                                         waits := ?_, clear := ?_ }
      · change (Registry.liveEpochs { s with live := _ }).Pairwise _
        rw [hepochs]
        exact inv.ascending.filter _
      · change ∀ e ∈ Registry.liveEpochs { s with live := _ }, _
        rw [hepochs]
        exact fun e he => inv.epochs e (hsub e he)
      · intro d hd
        obtain ⟨hlast, hlive, hiff⟩ := inv.stamps d hd
        refine ⟨hlast, hlive, fun e he => hiff e (hsub e ?_)⟩
        rw [← hepochs]
        exact he
      · refine List.Perm.trans ?_ inv.queued
        have hsplit := (filter_append_perm (fun w : ℕ × SnapshotOrphan γ =>
          decide (w.1 = epoch)) s.waiting).map Prod.snd
        rw [perm_iff_count] at hsplit ⊢
        intro o
        have ho := hsplit o
        simp only [map_append, count_append, count_nil, decide_not] at ho ⊢
        omega
      · intro w hw
        obtain ⟨hmem, hne⟩ := mem_filter.mp hw
        obtain ⟨hlive, hseen⟩ := inv.waits w hmem
        refine ⟨?_, hseen⟩
        change w.1 ∈ Registry.liveEpochs { s with live := _ }
        rw [hepochs]
        exact mem_filter.mpr ⟨hlive, by simpa using hne⟩
      · intro o ho e he
        refine inv.clear o ho e (hsub e ?_)
        rw [← hepochs]
        exact he

omit [DecidableEq γ] in
lemma newestEpoch_lt : s.newestEpoch < s.currentEpoch := by
  rw [Registry.newestEpoch]
  cases h : s.liveEpochs.getLast? with
  | none => exact inv.positive
  | some e => exact (inv.epochs e (mem_of_getLast? h)).2

omit [DecidableEq γ] in
lemma le_newestEpoch {e : ℕ} (he : e ∈ s.liveEpochs) : e ≤ s.newestEpoch := by
  obtain ⟨i, hi, rfl⟩ := mem_iff_getElem.mp he
  rw [Registry.newestEpoch, getLast?_eq_getElem?, getElem?_eq_getElem (by omega)]
  rcases Nat.lt_or_ge i (s.liveEpochs.length - 1) with hlt | hge
  · exact (pairwise_iff_getElem.mp inv.ascending _ _ _ _ hlt).le
  · obtain rfl : i = s.liveEpochs.length - 1 := by omega
    exact le_rfl

lemma Inv.stage {parent guid : γ} (hguid : guid ∈ s.tree) (firstEpoch : ℕ) :
    Inv (stageSnapshotOrphan s parent guid firstEpoch) := by
  have hnever : guid ∉ s.detached.map (fun d => d.1.guid) := by
    intro hmem
    obtain ⟨d, hd, rfl⟩ := List.mem_map.mp hmem
    exact (inv.gone d hd).2 hguid
  -- so no record of it is staged either
  have hnone : ¬ s.pending.any (fun p => decide (p.1 = parent ∧ p.2.guid = guid)) = true := by
    intro hany
    obtain ⟨p, hp, hpg⟩ := List.any_eq_true.mp hany
    have hstaged : p.2 ∈ s.detached.map Prod.fst :=
      inv.staged.mem_iff.mp (by simp [List.mem_map.mpr ⟨p, hp, rfl⟩])
    obtain ⟨d, hd, hdp⟩ := List.mem_map.mp hstaged
    refine hnever (List.mem_map.mpr ⟨d, hd, ?_⟩)
    rw [hdp]
    exact (of_decide_eq_true hpg).2
  rw [stageSnapshotOrphan, if_neg hnone]
  refine { inv with once := ?_, gone := ?_, grown := ?_, stamps := ?_, staged := ?_ }
  · rw [map_append, nodup_append]
    refine ⟨inv.once, nodup_singleton _, fun a ha b hb => ?_⟩
    obtain rfl := mem_singleton.mp hb
    exact fun h => hnever (h ▸ ha)
  · intro d hd
    rcases Table.mem_concat hd with hd | rfl
    · obtain ⟨hused, hout⟩ := inv.gone d hd
      exact ⟨hused, fun hmem => hout (mem_of_mem_filter hmem)⟩
    · exact ⟨inv.grown guid hguid, by simp⟩
  · exact fun g hg => inv.grown g (mem_of_mem_filter hg)
  · intro d hd
    rcases Table.mem_concat hd with hd | rfl
    · exact inv.stamps d hd
    · refine ⟨newestEpoch_lt inv, fun e he => (inv.epochs e he).2, fun e he => ?_⟩
      constructor
      · exact fun _ => he
      · exact fun _ => le_newestEpoch inv he
  · have hstaged := inv.staged
    rw [perm_iff_count] at hstaged ⊢
    intro o
    have ho := hstaged o
    simp only [map_append, count_append, map_cons, map_nil] at ho ⊢
    omega

lemma Inv.install {guid : γ} (hfresh : guid ∉ s.used) (seq : ℕ) :
    Inv (installNewBlob s guid seq) := by
  refine { inv with gone := ?_, grown := ?_ }
  · intro d hd
    obtain ⟨hused, hout⟩ := inv.gone d hd
    refine ⟨mem_cons_of_mem _ hused, fun hmem => ?_⟩
    rcases mem_cons.mp hmem with heq | hmem
    · exact hfresh (heq ▸ hused)
    · exact hout hmem
  · intro g hg
    rcases mem_cons.mp hg with rfl | hg
    · exact mem_cons_self
    · exact mem_cons_of_mem _ (inv.grown g hg)

lemma Inv.markDirty (guid : γ) (seq : ℕ) : Inv (markDirty s guid seq) := by
  refine { inv with staged := ?_ }
  have hstaged := inv.staged
  have hsplit := (filter_append_perm (fun p : γ × SnapshotOrphan γ =>
    decide (p.1 = guid)) s.pending).map Prod.snd
  rw [perm_iff_count] at hstaged hsplit ⊢
  intro o
  have ho := hstaged o
  have hs := hsplit o
  simp only [Snapshots.markDirty, decide_not, map_append, count_append] at ho hs ⊢
  split_ifs with hempty
  · simp only [hempty, count_nil] at hs
    omega
  · simp only [map_append, map_cons, map_nil, flatten_append,
      flatten_cons, flatten_nil, append_nil, count_append]
    omega

lemma Inv.queuePublished {i : ℕ} {parent : γ} {orphans : List (SnapshotOrphan γ)}
    (hi : s.publishing[i]? = some (parent, orphans)) :
    Inv (queuePublished { s with publishing := s.publishing.eraseIdx i } parent orphans) := by
  refine InvWith.queueAll { inv with staged := ?_, queued := ?_ }
  · obtain ⟨hlt, hget⟩ := List.getElem?_eq_some_iff.mp hi
    have hstaged := inv.staged
    have hsplit := ((getElem_cons_eraseIdx_perm hlt).map Prod.snd).flatten
    rw [hget] at hsplit
    rw [perm_iff_count] at hstaged hsplit ⊢
    intro o
    have ho := hstaged o
    have hs := hsplit o
    simp only [map_cons, flatten_cons, count_append] at ho hs ⊢
    omega
  · simpa using inv.queued.append_right orphans

omit inv in
/-- Putting back what was taken: nothing of it is in the queue. -/
lemma restoreRetired_eq {queue guids : List γ} (h : (queue ++ guids).Nodup) :
    restoreRetired queue guids = queue ++ guids := by
  induction guids generalizing queue with
  | nil => simp [restoreRetired]
  | cons g guids ih =>
    have hg : g ∉ queue := by
      intro hmem
      rw [nodup_append] at h
      exact h.2.2 g hmem g mem_cons_self rfl
    have hnext : (queue ++ [g] ++ guids).Nodup := by simpa using h
    have hstep : restoreRetired queue (g :: guids) = restoreRetired (queue ++ [g]) guids := by
      simp [restoreRetired, hg]
    rw [hstep, ih hnext]
    simp

lemma Inv.takeRetired (limit : ℕ) : Inv { s with
    taken := s.taken ++ [s.retiredOrphans.take limit]
    retiredOrphans := s.retiredOrphans.drop limit } := by
  refine { inv with kept := inv.kept.trans ?_ }
  rw [perm_iff_count]
  intro g
  have hsplit := congrArg (List.count g) (take_append_drop limit s.retiredOrphans)
  simp only [flatten_append, flatten_cons, flatten_nil, append_nil,
    count_append] at hsplit ⊢
  omega

lemma Inv.settleTaken {i : ℕ} {batch : List γ} (hi : s.taken[i]? = some batch) (kept : List γ) :
    Inv { s with
      taken := s.taken.eraseIdx i
      retiredOrphans := restoreRetired s.retiredOrphans (batch.filter (fun g => g ∈ kept))
      freed := s.freed ++ batch.filter (fun g => g ∉ kept) } := by
  obtain ⟨hlt, hget⟩ := List.getElem?_eq_some_iff.mp hi
  have hsplit := (getElem_cons_eraseIdx_perm hlt).flatten
  rw [hget, flatten_cons] at hsplit
  have hnodup : (s.retiredOrphans ++ batch.filter (fun g => g ∈ kept)).Nodup := by
    have hall : (s.retiredOrphans ++ s.taken.flatten).Nodup := by
      have h := inv.nodup_kept
      rw [nodup_append] at h
      exact h.1
    have hbatch := (hsplit.append_left s.retiredOrphans).nodup_iff.mpr hall
    refine hbatch.sublist (List.Sublist.append_left ?_ _)
    exact filter_sublist.trans (sublist_append_left _ _)
  rw [restoreRetired_eq hnodup]
  refine { inv with kept := inv.kept.trans ?_ }
  have hparts := filter_append_perm (fun g => decide (g ∈ kept)) batch
  rw [perm_iff_count] at hsplit hparts ⊢
  intro g
  have hs := hsplit g
  have hp := hparts g
  simp only [count_append, decide_not] at hs hp ⊢
  omega

lemma Inv.step {a : Action γ} (hstep : step s a = some s') : Inv s' := by
  cases a with
  | register count =>
    cases hstep
    exact inv.register count
  | pinRoots =>
    cases hstep
    exact inv.setHolders (by simp)
  | retire epoch =>
    cases hstep
    exact inv.retire epoch
  | grow guid seq =>
    obtain ⟨hfresh, hs'⟩ := Option.ite_none_left_eq_some.mp hstep
    cases hs'
    exact inv.install hfresh seq
  | fork parent child fork =>
    obtain ⟨⟨hchild, hfresh, -⟩, rfl⟩ := Transition.guard_eq_some.mp hstep
    exact (inv.install hfresh _).stage (mem_cons_of_mem _ hchild) _
  | unlink parent child =>
    obtain ⟨hchild, rfl⟩ := Transition.guard_eq_some.mp hstep
    exact inv.stage hchild 0
  | markDirty guid seq =>
    cases hstep
    exact inv.markDirty guid seq
  | queuePublished i =>
    simp only [Snapshots.step] at hstep
    split at hstep <;> try contradiction
    next parent orphans hi =>
      cases hstep
      exact inv.queuePublished hi
  | takeRetired limit =>
    cases hstep
    exact inv.takeRetired limit
  | settleTaken i kept =>
    simp only [Snapshots.step] at hstep
    split at hstep <;> try contradiction
    next batch hi =>
      cases hstep
      exact inv.settleTaken hi kept

end Invariant

/-- In every run from an open store:

* a frame that entered the queue was published, and no live epoch lies in its interval;
* it entered once, and is once in the queue, in a batch taken from it, or freed;
* a published frame has entered exactly if none of the snapshots that were live when it was
  detached, and at least as new as its first epoch, is live still: snapshots registered later do
  not count. -/
theorem orphan_lifecycle (epoch : ℕ) (tree : List γ) (created : γ → ℕ) {as : List (Action γ)}
    {s : Registry γ}
    (hrun : Transition.exec step (Registry.open epoch tree created) as = some s) :
    (∀ o ∈ s.entered, o ∈ s.published ∧
      ∀ e ∈ s.liveEpochs, ¬ (o.firstEpoch ≤ e ∧ e ≤ o.lastEpoch)) ∧
    (s.entered.map SnapshotOrphan.guid).Nodup ∧
    (s.entered.map SnapshotOrphan.guid).Perm
      (s.retiredOrphans ++ s.taken.flatten ++ s.freed) ∧
    ∀ d ∈ s.detached, d.1 ∈ s.published →
      (d.1 ∈ s.entered ↔ ∀ e ∈ d.2, d.1.firstEpoch ≤ e → e ∉ s.liveEpochs) := by
  have inv : Inv s := (Transition.freePath_of_exec hrun).invariant
    (fun _ _ _ hs _ hstep => hs.step hstep) (inv_open epoch tree created)
  refine ⟨fun o ho => ⟨?_, inv.clear o ho⟩, ?_, inv.kept, fun d hd hpub => ?_⟩
  · exact inv.queued.mem_iff.mp (by simp [ho])
  · simpa using inv.nodup_entered
  · obtain ⟨-, -, hiff⟩ := inv.stamps d hd
    constructor
    · intro hentered e he hfirst hlive
      exact inv.clear d.1 hentered e hlive ⟨hfirst, (hiff e hlive).mpr he⟩
    · intro hretired
      -- a record that still waits does so for a live epoch of its detachment
      have hmem : d.1 ∈ s.waiting.map Prod.snd ++ s.entered ++ [] := inv.queued.mem_iff.mpr hpub
      rw [append_nil] at hmem
      rcases mem_append.mp hmem with hwaiting | hentered
      · obtain ⟨w, hw, hwd⟩ := List.mem_map.mp hwaiting
        obtain ⟨hlive, hfirst, hlast⟩ := inv.waits w hw
        rw [hwd] at hfirst hlast
        exact absurd hlive (hretired w.1 ((hiff w.1 hlive).mp hlast) hfirst)
      · exact hentered

/-- Frame 1 is forked under snapshots 5 and 6, snapshot 7 comes later: retiring 5 and 6 releases
it. -/
def forkedUnderTwo : List (Action ℕ) :=
  [.register 2, .fork 0 1 2, .register 1, .markDirty 0 9, .queuePublished 0, .retire 6, .retire 5]

theorem orphan_lifecycle_forkedUnderTwo :
    (Transition.exec step (Registry.open 5 [0, 1] (fun _ => 1)) forkedUnderTwo).map
        (fun s => (s.liveEpochs, s.retiredOrphans, s.entered.map SnapshotOrphan.guid)) =
      some ([7], [1], [1]) ∧
    ∀ s, Transition.exec step (Registry.open 5 [0, 1] (fun _ => 1)) forkedUnderTwo = some s →
      (s.entered.map SnapshotOrphan.guid).Nodup := by
  refine ⟨by decide +kernel, fun s hrun => ?_⟩
  exact (orphan_lifecycle 5 [0, 1] (fun _ => 1) hrun).2.1

/-! ## The fork barrier -/

section Barrier

variable {s s' : Registry γ}

/-- Queueing changes neither the epochs nor the barrier. -/
lemma epochs_queueAll (orphans : List (SnapshotOrphan γ)) (s : Registry γ) :
    let s' := orphans.foldl queueOrphan s
    (s'.currentEpoch, s'.forkBarrier, s'.liveEpochs) =
      (s.currentEpoch, s.forkBarrier, s.liveEpochs) := by
  induction orphans generalizing s with
  | nil => rfl
  | cons o orphans ih =>
    refine (ih (queueOrphan s o)).trans ?_
    rw [queueOrphan]
    split <;> try split_ifs
    all_goals rfl

/-- What a step does to the epochs: a registration reserves the next ones, the last holder of an
epoch removes it, and no other step changes which epochs are live. -/
structure EpochStep (s s' : Registry γ) (a : Action γ) : Prop where
  barrier : s.forkBarrier = s.newestEpoch → s'.forkBarrier = s'.newestEpoch
  live : ∀ e, e ∈ s'.liveEpochs ↔ s.currentEpoch ≤ e ∧ e < s'.currentEpoch ∨
    e ∈ s.liveEpochs ∧ ¬ (a = .retire e ∧ ∃ holders ≤ 1, (e, holders) ∈ s.live)

omit [DecidableEq γ] in
lemma EpochStep.of_eq {a : Action γ} (ha : ∀ e, a ≠ .retire e)
    (hsame : (s'.currentEpoch, s'.forkBarrier, s'.liveEpochs) =
      (s.currentEpoch, s.forkBarrier, s.liveEpochs)) : EpochStep s s' a := by
  simp only [Prod.mk.injEq] at hsame
  obtain ⟨hcurrent, hbarrier, hlive⟩ := hsame
  refine ⟨fun h => ?_, fun e => ?_⟩
  · rw [hbarrier, h, Registry.newestEpoch, Registry.newestEpoch, hlive]
  · have hempty : ¬ (s.currentEpoch ≤ e ∧ e < s.currentEpoch) := by omega
    simp [hcurrent, hlive, ha e, hempty]

omit [DecidableEq γ] in
lemma epochStep_register (s : Registry γ) (count : ℕ) :
    EpochStep s (registerSnapshots s count) (.register count) := by
  rw [registerSnapshots]
  split_ifs with hroom
  · refine ⟨fun _ => ?_, fun e => ?_⟩
    · obtain ⟨n, rfl⟩ := Nat.exists_eq_succ_of_ne_zero hroom.1
      simp [Registry.newestEpoch, Registry.liveEpochs, range_succ]
    · have hnew : (∃ i < count, s.currentEpoch + i = e) ↔
          s.currentEpoch ≤ e ∧ e < s.currentEpoch + count := by
        constructor
        · rintro ⟨i, hi, rfl⟩
          omega
        · exact fun ⟨hle, hlt⟩ => ⟨e - s.currentEpoch, by omega, by omega⟩
      simp [Registry.liveEpochs, Function.comp_def, hnew, or_comm]
  · exact .of_eq (by simp) rfl

lemma epochStep_retire (inv : Inv s) (epoch : ℕ) :
    EpochStep s (retireSnapshot s epoch) (.retire epoch) := by
  have hempty : ∀ e, ¬ (s.currentEpoch ≤ e ∧ e < s.currentEpoch) := by omega
  rw [retireSnapshot]
  split
  case h_1 hnone =>
    refine ⟨id, fun e => ?_⟩
    have hother : ∀ r ∈ s.live, r.1 ≠ epoch := by simpa using hnone
    rw [or_iff_right (hempty e), iff_self_and]
    rintro - ⟨heq, holders, -, hmem⟩
    cases heq
    exact hother _ hmem rfl
  case h_2 first holders hfirst =>
    have hrecord : first = epoch := by simpa using find?_some hfirst
    subst hrecord
    have hmem := mem_of_find?_eq_some hfirst
    -- an epoch has one record
    have hone : ∀ n, (first, n) ∈ s.live → n = holders := by
      intro n hn
      have hnodup : (s.live.map Prod.fst).Nodup := inv.ascending.imp (fun h => h.ne)
      exact (Prod.mk.inj (inj_on_of_nodup_map hnodup hn hmem rfl)).2
    split_ifs with hmany
    · have hlive : Registry.liveEpochs { s with
          live := s.live.map (fun r => if r.1 = first then (r.1, r.2 - 1) else r) } =
          s.liveEpochs := map_fst_dropHolder first s.live
      refine ⟨fun h => ?_, fun e => ?_⟩
      · rwa [Registry.newestEpoch, hlive]
      · rw [hlive, or_iff_right (hempty e), iff_self_and]
        rintro - ⟨heq, n, hn, hrecord⟩
        cases heq
        exact absurd (hone n hrecord) (by omega)
    · have hqueue := epochs_queueAll ((s.waiting.filter (fun w => w.1 = first)).map Prod.snd)
        { s with
          live := s.live.filter (fun r => r.1 ≠ first)
          forkBarrier := Registry.newestEpoch { s with
            live := s.live.filter (fun r => r.1 ≠ first) }
          waiting := s.waiting.filter (fun w => w.1 ≠ first) }
      simp only [Prod.mk.injEq] at hqueue
      obtain ⟨hcurrent, hbarrier, hlive⟩ := hqueue
      refine ⟨fun _ => ?_, fun e => ?_⟩
      · rw [hbarrier, Registry.newestEpoch, Registry.newestEpoch, hlive]
        rfl
      · rw [hlive, hcurrent, or_iff_right (hempty e)]
        have hlast : ∃ n ≤ 1, (first, n) ∈ s.live := ⟨holders, by omega, hmem⟩
        have hgone : e ∈ Registry.liveEpochs { s with
            live := s.live.filter (fun r => r.1 ≠ first) } ↔ e ∈ s.liveEpochs ∧ e ≠ first := by
          simp [Registry.liveEpochs]
        refine hgone.trans (and_congr_right fun _ => not_congr ⟨fun heq => ?_, fun h => ?_⟩)
        · subst heq
          exact ⟨rfl, hlast⟩
        · exact (Action.retire.inj h.1).symm

lemma epochStep_of_step {a : Action γ} (inv : Inv s) (hstep : step s a = some s') :
    EpochStep s s' a := by
  cases a with
  | register count =>
    cases hstep
    exact epochStep_register s count
  | pinRoots =>
    cases hstep
    exact .of_eq (by simp) (by simp [Registry.liveEpochs])
  | retire epoch =>
    cases hstep
    exact epochStep_retire inv epoch
  | queuePublished i =>
    simp only [Snapshots.step] at hstep
    split at hstep <;> try contradiction
    next parent orphans hi =>
      cases hstep
      exact .of_eq (by simp) (epochs_queueAll orphans _)
  | grow guid seq =>
    obtain ⟨-, hs'⟩ := Option.ite_none_left_eq_some.mp hstep
    cases hs'
    exact .of_eq (by simp) rfl
  | fork | unlink =>
    obtain ⟨-, rfl⟩ := Transition.guard_eq_some.mp hstep
    exact .of_eq (by simp) rfl
  | markDirty | takeRetired =>
    cases hstep
    exact .of_eq (by simp) rfl
  | settleTaken i kept =>
    simp only [Snapshots.step] at hstep
    split at hstep <;> try contradiction
    cases hstep
    exact .of_eq (by simp) rfl

end Barrier

/-- In every run from an open store the fork barrier is the newest live epoch, zero if there is
none.  The epochs that a step leaves live are those it has registered and those that were live,
without the one whose last holder it retires.  A frame that is created or forked next is stamped
above the barrier, and a registration for which the epochs do not suffice changes nothing. -/
theorem fork_barrier_newest (epoch : ℕ) (tree : List γ) (created : γ → ℕ) {as : List (Action γ)}
    {s : Registry γ}
    (hrun : Transition.exec step (Registry.open epoch tree created) as = some s) :
    (∀ e ∈ s.liveEpochs, e ≤ s.forkBarrier) ∧
    (s.forkBarrier ∈ s.liveEpochs ∨ s.liveEpochs = [] ∧ s.forkBarrier = 0) ∧
    (∀ a s', step s a = some s' → ∀ e, e ∈ s'.liveEpochs ↔
      s.currentEpoch ≤ e ∧ e < s'.currentEpoch ∨
      e ∈ s.liveEpochs ∧ ¬ (a = .retire e ∧ ∃ holders ≤ 1, (e, holders) ∈ s.live)) ∧
    (∀ guid seq s', step s (.grow guid seq) = some s' → s.forkBarrier < s'.created guid) ∧
    (∀ parent child fork s', step s (.fork parent child fork) = some s' →
      s.forkBarrier < s'.created fork) ∧
    ∀ count, 2 ^ 64 - 1 ≤ s.currentEpoch + count → step s (.register count) = some s := by
  obtain ⟨inv, hbarrier⟩ := (Transition.freePath_of_exec hrun).invariant
    (I := fun s => Inv s ∧ s.forkBarrier = s.newestEpoch)
    (fun _ _ _ hs _ hstep => ⟨hs.1.step hstep, (epochStep_of_step hs.1 hstep).barrier hs.2⟩)
    ⟨inv_open epoch tree created, rfl⟩
  have hlt := newestEpoch_lt inv
  rw [hbarrier]
  refine ⟨fun e he => le_newestEpoch inv he, ?_,
    fun a s' hstep => (epochStep_of_step inv hstep).live, fun guid seq s' hstep => ?_,
    fun parent child fork s' hstep => ?_, fun count hfull => ?_⟩
  · rw [Registry.newestEpoch]
    cases h : s.liveEpochs.getLast? with
    | none => exact .inr ⟨getLast?_eq_none_iff.mp h, rfl⟩
    | some e => exact .inl (mem_of_getLast? h)
  · obtain ⟨-, hs'⟩ := Option.ite_none_left_eq_some.mp hstep
    cases hs'
    simpa [installNewBlob] using hlt
  · obtain ⟨-, rfl⟩ := Transition.guard_eq_some.mp hstep
    simpa [stageSnapshotOrphan, installNewBlob] using hlt
  · simp only [Snapshots.step, registerSnapshots]
    rw [if_neg (by omega)]

/-- Epoch 7 is the one that is left; the next frame is stamped with 8. -/
theorem fork_barrier_newest_forkedUnderTwo :
    ∃ s, Transition.exec step (Registry.open 5 [0, 1] (fun _ => 1)) forkedUnderTwo = some s ∧
      s.liveEpochs = [7] ∧ s.currentEpoch = 8 ∧ (∀ e ∈ s.liveEpochs, e ≤ s.forkBarrier) ∧
      s.forkBarrier ∈ s.liveEpochs ∧
      (∀ s', step s (.retire 7) = some s' → ∀ e, e ∈ s'.liveEpochs ↔
        s.currentEpoch ≤ e ∧ e < s'.currentEpoch ∨
        e ∈ s.liveEpochs ∧ ¬ ((.retire 7 : Action ℕ) = .retire e ∧
          ∃ holders ≤ 1, (e, holders) ∈ s.live)) ∧
      (∀ s', step s (.grow 3 1) = some s' → s.forkBarrier < s'.created 3) ∧
      (∀ s', step s (.fork 0 2 3) = some s' → s.forkBarrier < s'.created 3) ∧
      step s (.register (2 ^ 64)) = some s := by
  obtain ⟨s, hrun, hcheck⟩ := Transition.exists_of_exec_any
    (p := fun s => s.liveEpochs = [7] ∧ s.currentEpoch = 8)
    (show (Transition.exec step (Registry.open 5 [0, 1] fun _ => 1) forkedUnderTwo).any _ = true by
      decide +kernel)
  simp only [decide_eq_true_eq] at hcheck
  obtain ⟨hlive, hcurrent⟩ := hcheck
  obtain ⟨hle, hbarrier, hepochs, hgrow, hfork, hfull⟩ :=
    fork_barrier_newest 5 [0, 1] (fun _ => 1) hrun
  refine ⟨s, hrun, hlive, hcurrent, hle, hbarrier.resolve_right fun h => ?_, hepochs _, hgrow 3 1,
    hfork 0 2 3, hfull _ (by omega)⟩
  rw [hlive] at h
  cases h.1

end Snapshots
end Store
end Holt
