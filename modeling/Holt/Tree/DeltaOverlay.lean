import Holt.Lib.Transition
import Holt.Tree.DeltaMaps

/-!
# Reads through the write delta while a flush is under way

A flush takes the staged operations of a tree, or of all trees, out of `pending`, keeps them
readable in `flushing` while it applies them, and then either drops them (`finish_flush`) or, if
applying them failed, stages them again (`abort_flush`).  Writers go on staging in between.  One
mutex, `write_delta_flush`, is held from the begin of a flush to its end, so one batch is in
flight at a time; the operations of a batch are grouped by tree here, as operations of different
trees touch different maps.

What a reader should see is kept beside the maps: the `Ledger` lists every staged operation that
no flush has finished, with nothing dropped when a later operation on the same key arrives.  The
newest of them is what `get` returns, as long as no flush is aborted after one of its keys has
been staged again: `abort_flush` then puts the old operation in the place of the new one
(`get_after_abort`).
-/

namespace Holt
namespace Tree

open List Option Transition

namespace DeltaMaps

/-- The body of the loop of `WriteDelta::abort_flush`. -/
def abortOne (d : DeltaMaps) (op : StagedOp) : DeltaMaps := (d.removeFlushing op).insertPending op

/-- `WriteDelta::abort_flush`. -/
def abortFlush (d : DeltaMaps) (ops : List StagedOp) : DeltaMaps := ops.foldl abortOne d

end DeltaMaps

/-- `WriteDelta`: the maps of every tree, and the operations the flush that is under way has
taken out of them. -/
structure Overlay where
  maps : ℕ → DeltaMaps
  flight : Option (ℕ → List StagedOp)

/-- The calls of `WriteDelta`; `stage` is `stage_put` or `stage_delete`. -/
inductive OverlayAction
  | stage (tree : ℕ) (op : StagedOp)
  | beginFlushTree (tree : ℕ)
  | beginFlushAll
  | finishFlush
  | abortFlush
deriving DecidableEq

namespace Overlay

/-- Nothing staged. -/
def empty : Overlay := ⟨fun _ => .empty, none⟩

/-- `WriteDelta::get`. -/
def get (o : Overlay) (tree : ℕ) (key : Key) : Option StagedEntry := (o.maps tree).get key

def step (o : Overlay) : OverlayAction → Option Overlay
  | .stage tree op =>
    some { o with maps := Function.update o.maps tree ((o.maps tree).insertPending op) }
  | .beginFlushTree tree =>
    if o.flight.isNone then
      some ⟨Function.update o.maps tree (o.maps tree).beginFlushTree.2,
        some (Function.update (fun _ => []) tree (o.maps tree).beginFlushTree.1)⟩
    else none
  | .beginFlushAll =>
    if o.flight.isNone then
      some ⟨fun t => (o.maps t).beginFlushTree.2, some fun t => (o.maps t).beginFlushTree.1⟩
    else none
  | .finishFlush => o.flight.map fun batch => ⟨fun t => (o.maps t).finishFlush (batch t), none⟩
  | .abortFlush => o.flight.map fun batch => ⟨fun t => (o.maps t).abortFlush (batch t), none⟩

/-- A key of the batch in flight has been staged again. -/
def Overtaken (o : Overlay) : Prop :=
  ∃ batch ∈ o.flight, ∃ t, ∃ op ∈ batch t, op.key ∈ (o.maps t).pending.map StagedOp.key

end Overlay

/-! ## What has been staged and not finished -/

/-- The staged operations of each tree that no flush has finished, in the order they were
staged: those that wait, and those of the flush under way.  `next` is above every number given
to an operation so far. -/
structure Ledger where
  waiting : ℕ → List StagedOp
  flying : ℕ → List StagedOp
  next : ℕ

namespace Ledger

def empty : Ledger := ⟨fun _ => [], fun _ => [], 0⟩

/-- The operations of a tree that are not finished. -/
def unfinished (l : Ledger) (tree : ℕ) : List StagedOp := l.flying tree ++ l.waiting tree

/-- The numbers of staged operations increase. -/
def Numbered (l : Ledger) : OverlayAction → Prop
  | .stage _ op => l.next ≤ op.entry.seq
  | _ => True

instance (l : Ledger) (a : OverlayAction) : Decidable (l.Numbered a) := by
  cases a <;> unfold Numbered <;> infer_instance

/-- What a call does to the operations that are not finished. -/
def record (l : Ledger) : OverlayAction → Ledger
  | .stage tree op => { l with
      waiting := Function.update l.waiting tree (l.waiting tree ++ [op])
      next := op.entry.seq + 1 }
  | .beginFlushTree tree => { l with
      waiting := Function.update l.waiting tree []
      flying := Function.update (fun _ => []) tree (l.waiting tree) }
  | .beginFlushAll => { l with waiting := fun _ => [], flying := l.waiting }
  | .finishFlush => { l with flying := fun _ => [] }
  | .abortFlush => { l with waiting := l.unfinished, flying := fun _ => [] }

end Ledger

/-- `e` is the operation on `key` with the highest number, if there is one. -/
def IsNewest (ops : List StagedOp) (key : Key) : Option StagedEntry → Prop
  | none => ∀ op ∈ ops, op.key ≠ key
  | some e => ⟨key, e⟩ ∈ ops ∧ ∀ op ∈ ops, op.key = key → op.entry.seq ≤ e.seq

/-- The maps with the ledger beside them. -/
structure Staging where
  overlay : Overlay
  ledger : Ledger

namespace Staging

def empty : Staging := ⟨.empty, .empty⟩

def step (s : Staging) (a : OverlayAction) : Option Staging :=
  if s.ledger.Numbered a then (s.overlay.step a).map fun o => ⟨o, s.ledger.record a⟩ else none

/-- Every read returns the newest operation that is not finished. -/
def Exact (s : Staging) : Prop :=
  ∀ tree key, IsNewest (s.ledger.unfinished tree) key (s.overlay.get tree key)

end Staging

/-! ## The newest operation of a list -/

section Newest

variable {ops more : List StagedOp} {key : Key} {e : StagedEntry}

/-- An operation with a higher number than all before it is the newest on its key. -/
lemma isNewest_append_new {r : Option StagedEntry} (h : IsNewest ops key r) (op : StagedOp)
    (hnew : ∀ x ∈ ops, x.entry.seq < op.entry.seq) :
    IsNewest (ops ++ [op]) key (if key = op.key then some op.entry else r) := by
  by_cases hkey : key = op.key
  · rw [if_pos hkey]
    constructor
    · simp [hkey]
    · intro x hx _
      rcases mem_append.mp hx with hx | hx
      · exact (hnew x hx).le
      · rw [mem_singleton.mp hx]
  · rw [if_neg hkey]
    cases r with
    | none =>
      intro x hx
      rcases mem_append.mp hx with hx | hx
      · exact h x hx
      · rw [mem_singleton.mp hx]
        exact Ne.symm hkey
    | some e =>
      constructor
      · exact mem_append_left _ h.1
      · intro x hx hxkey
        rcases mem_append.mp hx with hx | hx
        · exact h.2 x hx hxkey
        · rw [mem_singleton.mp hx] at hxkey
          exact absurd hxkey.symm hkey

lemma isNewest_append {r r' : Option StagedEntry} (h : IsNewest ops key r)
    (h' : IsNewest more key r') (hlater : ∀ x ∈ ops, ∀ y ∈ more, x.entry.seq < y.entry.seq) :
    IsNewest (ops ++ more) key (r'.or r) := by
  cases r' with
  | some e' =>
    constructor
    · exact mem_append_right _ h'.1
    · intro x hx hkey
      rcases mem_append.mp hx with hx | hx
      · exact (hlater x hx _ h'.1).le
      · exact h'.2 x hx hkey
  | none =>
    cases r with
    | none =>
      intro x hx
      rcases mem_append.mp hx with hx | hx
      · exact h x hx
      · exact h' x hx
    | some e =>
      constructor
      · exact mem_append_left _ h.1
      · intro x hx hkey
        rcases mem_append.mp hx with hx | hx
        · exact h.2 x hx hkey
        · exact absurd hkey (h' x hx)

end Newest

/-! ## Aborting a flush -/

namespace DeltaMaps

variable {d : DeltaMaps} {ops : List StagedOp}

/-- To the `flushing` half an aborted flush is a finished one. -/
lemma flushing_abortFlush (ops : List StagedOp) {d d' : DeltaMaps}
    (hflushing : d.flushing = d'.flushing) (hcount : d.flushingKeySet = d'.flushingKeySet) :
    (d.abortFlush ops).flushing = (d'.finishFlush ops).flushing ∧
      (d.abortFlush ops).flushingKeySet = (d'.finishFlush ops).flushingKeySet := by
  induction ops generalizing d d' with
  | nil => exact ⟨hflushing, hcount⟩
  | cons op ops ih =>
    have hone : (d.abortOne op).flushing = (d'.removeFlushing op).flushing ∧
        (d.abortOne op).flushingKeySet = (d'.removeFlushing op).flushingKeySet := by
      simp only [abortOne, insertPending, removeFlushing, hflushing]
      cases findStaged d'.flushing op.key with
      | none => exact ⟨hflushing, hcount⟩
      | some current =>
        by_cases hseq : current.seq = op.entry.seq
        · simp [hseq, hcount]
        · simp [hseq, hflushing, hcount]
    exact ih hone.1 hone.2

lemma pending_removeFlushing (d : DeltaMaps) (op : StagedOp) :
    (d.removeFlushing op).pending = d.pending := by
  unfold removeFlushing
  cases findStaged d.flushing op.key with
  | none => rfl
  | some current =>
    by_cases hseq : current.seq = op.entry.seq
    · simp [hseq]
    · simp [hseq]

/-- An aborted flush stages its operations over what has been staged since. -/
lemma pending_abortFlush (hops : OncePerKey ops) (d : DeltaMaps) (hd : OncePerKey d.pending) :
    OncePerKey (d.abortFlush ops).pending ∧
      ∀ key, findStaged (d.abortFlush ops).pending key =
        (findStaged ops key).or (findStaged d.pending key) := by
  induction ops generalizing d with
  | nil => exact ⟨hd, fun key => rfl⟩
  | cons op ops ih =>
    have hfirst : (d.abortOne op).pending = insertStaged d.pending op := by
      show insertStaged (d.removeFlushing op).pending op = _
      rw [pending_removeFlushing]
    have honce : OncePerKey (d.abortOne op).pending := by
      rw [hfirst]
      exact oncePerKey_insertStaged hd op
    obtain ⟨hafter, hfind⟩ := ih (nodup_cons.mp hops).2 (d.abortOne op) honce
    refine ⟨hafter, fun key => ?_⟩
    show findStaged ((d.abortOne op).abortFlush ops).pending key = _
    rw [hfind, hfirst, findStaged_insertStaged, findStaged_cons]
    by_cases hkey : op.key = key
    · -- no later operation of the batch is on the key
      have hnone : findStaged ops key = none :=
        findStaged_eq_none.mpr (hkey ▸ (nodup_cons.mp hops).1)
      rw [hnone, if_pos hkey, if_pos hkey.symm]
      rfl
    · rw [if_neg hkey, if_neg (Ne.symm hkey)]

end DeltaMaps

/-! ## The maps of a tree and its part of the ledger -/

/-- What the two halves of a tree's maps are to the operations that are not finished.  `batch`
are the operations of the tree that the flush under way has taken. -/
structure HalvesTrack (d : DeltaMaps) (batch : Option (List StagedOp))
    (waiting flying : List StagedOp)
    (next : ℕ) : Prop where
  once : OncePerKey d.pending
  onceFlushing : OncePerKey d.flushing
  flushing : d.flushing = batch.getD []
  count : d.flushingKeySet = keySetChanges d.flushing
  pendingNewest : ∀ key, IsNewest waiting key (findStaged d.pending key)
  flushingNewest : ∀ key, IsNewest flying key (findStaged d.flushing key)
  later : ∀ x ∈ flying, ∀ y ∈ waiting, x.entry.seq < y.entry.seq
  below : ∀ x ∈ flying ++ waiting, x.entry.seq < next

namespace HalvesTrack

variable {d : DeltaMaps} {batch : Option (List StagedOp)} {waiting flying ops : List StagedOp}
  {next : ℕ}

lemma empty : HalvesTrack .empty none [] [] 0 where
  once := nodup_nil
  onceFlushing := nodup_nil
  flushing := rfl
  count := rfl
  pendingNewest := fun _ _ h => absurd h not_mem_nil
  flushingNewest := fun _ _ h => absurd h not_mem_nil
  later := fun _ h => absurd h not_mem_nil
  below := fun _ h => absurd h not_mem_nil

/-- A key that is staged in both halves was staged later in `pending`. -/
lemma get_eq (h : HalvesTrack d batch waiting flying next) (key : Key) :
    d.get key = (findStaged d.pending key).or (findStaged d.flushing key) := by
  have hp := h.pendingNewest key
  have hf := h.flushingNewest key
  unfold DeltaMaps.get
  cases hpend : findStaged d.pending key with
  | none => cases findStaged d.flushing key <;> rfl
  | some a =>
    cases hflush : findStaged d.flushing key with
    | none => rfl
    | some b =>
      rw [hpend] at hp
      rw [hflush] at hf
      have hlt : b.seq < a.seq := h.later _ hf.1 _ hp.1
      simp [hlt.le]

lemma isNewest_get (h : HalvesTrack d batch waiting flying next) (key : Key) :
    IsNewest (flying ++ waiting) key (d.get key) := by
  rw [h.get_eq]
  exact isNewest_append (h.flushingNewest key) (h.pendingNewest key) h.later

lemma mono (h : HalvesTrack d batch waiting flying next) {next' : ℕ} (hle : next ≤ next') :
    HalvesTrack d batch waiting flying next' :=
  { h with below := fun x hx => (h.below x hx).trans_le hle }

lemma stage (h : HalvesTrack d batch waiting flying next) {op : StagedOp}
    (hop : next ≤ op.entry.seq) :
    HalvesTrack (d.insertPending op) batch (waiting ++ [op]) flying (op.entry.seq + 1) where
  once := oncePerKey_insertStaged h.once op
  onceFlushing := h.onceFlushing
  flushing := h.flushing
  count := h.count
  pendingNewest key := by
    show IsNewest _ key (findStaged (insertStaged d.pending op) key)
    rw [findStaged_insertStaged]
    apply isNewest_append_new (h.pendingNewest key)
    intro x hx
    exact (h.below x (mem_append_right _ hx)).trans_le hop
  flushingNewest := h.flushingNewest
  later x hx y hy := by
    rcases mem_append.mp hy with hy | hy
    · exact h.later x hx y hy
    · rw [mem_singleton.mp hy]
      exact (h.below x (mem_append_left _ hx)).trans_le hop
  below x hx := by
    rcases mem_append.mp hx with hx | hx
    · exact (h.below x (mem_append_left _ hx)).trans_le (hop.trans (Nat.le_succ _))
    · rcases mem_append.mp hx with hx | hx
      · exact (h.below x (mem_append_right _ hx)).trans_le (hop.trans (Nat.le_succ _))
      · rw [mem_singleton.mp hx]
        exact Nat.lt_succ_self _

lemma beginFlush (h : HalvesTrack d none waiting flying next) :
    HalvesTrack d.beginFlushTree.2 (some d.beginFlushTree.1) [] waiting next := by
  have hnone : d.flushing = [] := h.flushing
  have hbegin : d.beginFlushTree.2 =
      { pending := [], flushing := d.pending, pendingKeySet := 0,
        flushingKeySet := keySetChanges d.pending } := by
    show DeltaMaps.publishFlushing _ d.pending = _
    rw [DeltaMaps.publishFlushing_spec d.pending _ (by simpa [hnone] using h.once)
      (by simpa [hnone] using h.count)]
    simp [hnone]
  rw [hbegin]
  constructor
  case once => exact nodup_nil
  case onceFlushing => exact h.once
  case flushing => exact getD_some.symm
  case count => exact Eq.refl _
  case pendingNewest => exact fun _ _ hx => absurd hx not_mem_nil
  case flushingNewest => exact h.pendingNewest
  case later => exact fun _ _ _ hy => absurd hy not_mem_nil
  case below =>
    intro x hx
    rw [append_nil] at hx
    exact h.below x (mem_append_right _ hx)

lemma beginOther (h : HalvesTrack d none waiting flying next) :
    HalvesTrack d (some []) waiting [] next :=
  { h with
    flushingNewest := fun key => by
      have hnone : d.flushing = [] := h.flushing
      rw [hnone]
      exact fun _ hx => absurd hx not_mem_nil
    later := fun _ hx => absurd hx not_mem_nil
    below := fun x hx => h.below x (mem_append_right _ (by simpa using hx)) }

variable (h : HalvesTrack d (some ops) waiting flying next)
include h

lemma finish :
    HalvesTrack (d.finishFlush ops) none waiting [] next := by
  have hflushing : d.flushing = ops := h.flushing
  have hfinish := DeltaMaps.finishFlush_spec ops d (hflushing ▸ h.onceFlushing) hflushing
    (hflushing ▸ h.count)
  rw [hfinish]
  constructor
  case once => exact h.once
  case onceFlushing => exact nodup_nil
  case flushing => exact getD_none.symm
  case count => exact Eq.refl _
  case pendingNewest => exact h.pendingNewest
  case flushingNewest => exact fun _ _ hx => absurd hx not_mem_nil
  case later => exact fun _ hx => absurd hx not_mem_nil
  case below => exact fun x hx => h.below x (mem_append_right _ (by simpa using hx))

/-- After an aborted flush nothing is being flushed and its operations are staged. -/
lemma abort_spec :
    (d.abortFlush ops).flushing = [] ∧ (d.abortFlush ops).flushingKeySet = 0 ∧
      OncePerKey (d.abortFlush ops).pending ∧
      ∀ key, findStaged (d.abortFlush ops).pending key =
        (findStaged d.flushing key).or (findStaged d.pending key) := by
  have hflushing : d.flushing = ops := h.flushing
  have hfinish := DeltaMaps.finishFlush_spec ops d (hflushing ▸ h.onceFlushing) hflushing
    (hflushing ▸ h.count)
  obtain ⟨hleft, hcount⟩ := DeltaMaps.flushing_abortFlush ops (Eq.refl d.flushing)
    (Eq.refl d.flushingKeySet)
  obtain ⟨honce, hfind⟩ := DeltaMaps.pending_abortFlush (hflushing ▸ h.onceFlushing) d h.once
  rw [hfinish] at hleft hcount
  rw [hflushing]
  exact ⟨hleft, hcount, honce, hfind⟩

/-- Where no key of the batch was staged again, an aborted flush loses nothing. -/
lemma abort (hfree : ∀ op ∈ ops, op.key ∉ d.pending.map StagedOp.key) :
    HalvesTrack (d.abortFlush ops) none (flying ++ waiting) [] next := by
  obtain ⟨hflushing, hcount, honce, hfind⟩ := h.abort_spec
  constructor
  case once => exact honce
  case onceFlushing =>
    rw [hflushing]
    exact nodup_nil
  case flushing => exact hflushing
  case count =>
    rw [hflushing, hcount]
    exact Eq.refl 0
  case pendingNewest =>
    intro key
    -- at most one of the two halves has the key
    have hswap : (findStaged d.flushing key).or (findStaged d.pending key) = d.get key := by
      rw [h.get_eq]
      cases hf : findStaged d.flushing key with
      | none => simp
      | some e =>
        obtain ⟨op, hop, -⟩ := map_eq_some_iff.mp hf
        have hkey : op.key = key := by simpa using find?_some hop
        have hmem : op ∈ ops := by
          rw [h.flushing] at hop
          exact mem_of_find?_eq_some hop
        have hnone : findStaged d.pending key = none :=
          findStaged_eq_none.mpr (hkey ▸ hfree op hmem)
        rw [hnone]
        simp
    rw [hfind, hswap]
    exact h.isNewest_get key
  case flushingNewest =>
    intro key
    rw [hflushing]
    exact fun _ hx => absurd hx not_mem_nil
  case later => exact fun _ hx => absurd hx not_mem_nil
  case below => exact h.below

/-- Where a key of the batch was staged again, the aborted flush hides the newer operation. -/
lemma abort_overtaken {op : StagedOp} (hop : op ∈ ops)
    (hagain : op.key ∈ d.pending.map StagedOp.key) :
    ¬ IsNewest (flying ++ waiting) op.key ((d.abortFlush ops).get op.key) := by
  obtain ⟨hflushing, -, -, hfind⟩ := h.abort_spec
  obtain ⟨e, he⟩ : ∃ e, findStaged d.flushing op.key = some e := by
    apply ne_none_iff_exists'.mp
    intro hnone
    rw [findStaged_eq_none, h.flushing] at hnone
    exact hnone (List.mem_map_of_mem hop)
  obtain ⟨e', he'⟩ : ∃ e', findStaged d.pending op.key = some e' := by
    apply ne_none_iff_exists'.mp
    intro hnone
    exact findStaged_eq_none.mp hnone hagain
  have hget : (d.abortFlush ops).get op.key = some e := by
    have hpending : findStaged (d.abortFlush ops).pending op.key = some e := by
      rw [hfind, he]
      rfl
    have hnone : findStaged (d.abortFlush ops).flushing op.key = none := by
      rw [hflushing]
      rfl
    unfold DeltaMaps.get
    rw [hpending, hnone]
  have hold := h.flushingNewest op.key
  have hnew := h.pendingNewest op.key
  rw [he] at hold
  rw [he'] at hnew
  have hlt : e.seq < e'.seq := h.later _ hold.1 _ hnew.1
  rw [hget]
  intro hnewest
  exact absurd (hnewest.2 _ (mem_append_right _ hnew.1) (Eq.refl op.key)) (not_le.mpr hlt)

end HalvesTrack

/-! ## Runs -/

namespace Staging

/-- The maps of every tree track its part of the ledger. -/
def Sound (s : Staging) : Prop :=
  ∀ t, HalvesTrack (s.overlay.maps t) (s.overlay.flight.map (· t)) (s.ledger.waiting t)
    (s.ledger.flying t) s.ledger.next

lemma sound_empty : empty.Sound := fun _ => HalvesTrack.empty

variable {s s' : Staging} {a : OverlayAction}

lemma Sound.exact (h : s.Sound) : s.Exact := fun t key => (h t).isNewest_get key

lemma step_inv (h : s.step a = some s') :
    s.ledger.Numbered a ∧ s.overlay.step a = some s'.overlay ∧ s'.ledger = s.ledger.record a := by
  unfold step at h
  rw [ite_none_right_eq_some] at h
  obtain ⟨hnumber, hmap⟩ := h
  obtain ⟨o, ho, rfl⟩ := map_eq_some_iff.mp hmap
  exact ⟨hnumber, ho, rfl⟩

/-- Every call but an overtaken abort keeps the maps in step with the ledger. -/
lemma Sound.step (h : s.Sound) (hstep : s.step a = some s')
    (hcalm : a = .abortFlush → ¬ s.overlay.Overtaken) : s'.Sound := by
  obtain ⟨hnumber, ho, hl⟩ := step_inv hstep
  obtain ⟨o', l'⟩ := s'
  obtain rfl : l' = s.ledger.record a := hl
  intro t
  have ht := h t
  cases a with
  | stage tree op =>
    cases ho
    have hop : s.ledger.next ≤ op.entry.seq := hnumber
    by_cases heq : t = tree
    · subst heq
      simpa [Ledger.record] using ht.stage hop
    · simpa [Ledger.record, heq] using ht.mono (hop.trans (Nat.le_succ _))
  | beginFlushTree tree =>
    obtain ⟨hidle, rfl⟩ : s.overlay.flight.isNone ∧ _ = o' := by
      simpa [Overlay.step, ite_none_right_eq_some] using ho
    rw [isNone_iff_eq_none.mp hidle] at ht
    by_cases heq : t = tree
    · subst heq
      simpa [Ledger.record] using ht.beginFlush
    · simpa [Ledger.record, heq] using ht.beginOther
  | beginFlushAll =>
    obtain ⟨hidle, rfl⟩ : s.overlay.flight.isNone ∧ _ = o' := by
      simpa [Overlay.step, ite_none_right_eq_some] using ho
    rw [isNone_iff_eq_none.mp hidle] at ht
    exact ht.beginFlush
  | finishFlush =>
    obtain ⟨batch, hbatch, rfl⟩ := map_eq_some_iff.mp ho
    rw [hbatch] at ht
    exact ht.finish
  | abortFlush =>
    obtain ⟨batch, hbatch, rfl⟩ := map_eq_some_iff.mp ho
    rw [hbatch] at ht
    apply ht.abort
    intro op hop hagain
    exact hcalm (Eq.refl _) ⟨batch, hbatch, t, op, hop, hagain⟩

/-- An abort of a flush that has been overtaken makes a read go wrong. -/
lemma Sound.abort_overtaken (h : s.Sound) (hstep : s.step .abortFlush = some s')
    (hover : s.overlay.Overtaken) : ¬ s'.Exact := by
  obtain ⟨-, ho, hl⟩ := step_inv hstep
  obtain ⟨batch, hbatch, t, op, hop, hagain⟩ := hover
  obtain ⟨batch', hbatch', hmaps⟩ := map_eq_some_iff.mp ho
  cases hbatch.symm.trans hbatch'
  have ht := h t
  rw [hbatch] at ht
  intro hexact
  have hread := hexact t op.key
  rw [hl, ← hmaps] at hread
  exact ht.abort_overtaken hop hagain
    (by simpa [Ledger.record, Ledger.unfinished, Overlay.get] using hread)

lemma abort_enabled (hover : s.overlay.Overtaken) : ∃ s', s.step .abortFlush = some s' := by
  obtain ⟨batch, hbatch, -⟩ := hover
  have hflight : s.overlay.flight = some batch := hbatch
  simp only [step, Ledger.Numbered, if_true, Overlay.step, hflight, map_some]
  exact ⟨_, Eq.refl _⟩

lemma exec_append_singleton (s₀ : Staging) (as : List OverlayAction) (a : OverlayAction) :
    exec step s₀ (as ++ [a]) = (exec step s₀ as).bind fun s => s.step a := by
  induction as generalizing s₀ with
  | nil => simp
  | cons b as ih =>
    rw [cons_append, exec_cons, exec_cons, Option.bind_assoc]
    exact congrArg _ (funext fun s => ih s)

/-- A run of which every read is right, or no abort overtaken, keeps the maps in step. -/
lemma sound_of_run {as : List OverlayAction} (hrun : exec step empty as = some s)
    (hcalm : ∀ before, before ++ [.abortFlush] <+: as → ∀ s, exec step empty before = some s →
      s.Sound → ¬ s.overlay.Overtaken) : s.Sound := by
  induction as using List.reverseRecOn generalizing s with
  | nil =>
    cases hrun
    exact sound_empty
  | append_singleton as a ih =>
    rw [exec_append_singleton] at hrun
    obtain ⟨s₁, hs₁, hstep⟩ := bind_eq_some_iff.mp hrun
    have hsound : s₁.Sound :=
      ih hs₁ fun before hbefore => hcalm before (hbefore.trans (prefix_append _ _))
    apply hsound.step hstep
    rintro rfl
    exact hcalm as (prefix_refl _) s₁ hs₁ hsound

end Staging

/-- Reads through the delta return the newest operation that no flush has finished, all along
a run, exactly if the run aborts no flush of which a key has been staged again. -/
theorem reads_newest_write (as : List OverlayAction) :
    (∀ before, before <+: as → ∀ s, exec Staging.step .empty before = some s → s.Exact) ↔
      ∀ before, before ++ [.abortFlush] <+: as →
        ∀ s, exec Staging.step .empty before = some s → ¬ s.overlay.Overtaken := by
  constructor
  · intro hexact
    -- the maps are in step up to the first overtaken abort, and that one breaks a read
    have hcalm : ∀ before, before ++ [.abortFlush] <+: as → ∀ s,
        exec Staging.step .empty before = some s → s.Sound → ¬ s.overlay.Overtaken := by
      intro before hbefore s hs hsound hover
      obtain ⟨s', hs'⟩ := Staging.abort_enabled hover
      apply hsound.abort_overtaken hs' hover
      apply hexact _ hbefore
      rw [Staging.exec_append_singleton, hs]
      exact hs'
    intro before hbefore s hs
    apply hcalm before hbefore s hs
    apply Staging.sound_of_run hs
    intro earlier hearlier
    exact hcalm earlier (hearlier.trans ((prefix_append _ _).trans hbefore))
  · intro hcalm before hbefore s hs
    apply Staging.Sound.exact
    apply Staging.sound_of_run hs
    intro earlier hearlier s₁ hs₁ _
    exact hcalm earlier (hearlier.trans hbefore) s₁ hs₁

/-- A key is staged, a flush takes it, the key is staged again and the flush is aborted. -/
def abortedFlush : List OverlayAction :=
  [.stage 0 ⟨[1], .put [1] 1 false⟩, .beginFlushTree 0, .stage 0 ⟨[1], .put [2] 2 false⟩,
    .abortFlush]

/-- After it the older of the two writes is read, though the newer one is not finished. -/
theorem get_after_abort : ∃ s, exec Staging.step .empty abortedFlush = some s ∧
    s.overlay.get 0 [1] = some (.put [1] 1 false) ∧
    ⟨[1], .put [2] 2 false⟩ ∈ s.ledger.unfinished 0 := by
  have hcheck : (exec Staging.step .empty abortedFlush).any (fun s =>
      s.overlay.get 0 [1] = some (.put [1] 1 false) ∧
        ⟨[1], .put [2] 2 false⟩ ∈ s.ledger.unfinished 0) = true := by decide +kernel
  obtain ⟨s, hs, hread⟩ := exists_of_exec_any hcheck
  exact ⟨s, hs, of_decide_eq_true hread⟩

end Tree
end Holt
