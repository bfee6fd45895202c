import Holt.Checkpoint.Replay
import Holt.Checkpoint.Truncation

/-!
# What the engine keeps while it runs

The invariant of the engine in three parts.

* `Frames`: the cached blobs are a forest whose contents are the record writes made so far,
  the buffer manager's invariant holds for every blob of the forest, and what is durable is
  the store unless a flush is outstanding.
* `Admission`: who is inside the commit gate, and what a test that has come so far knows:
  nothing it has read as zero can have changed since, but for entries restored between its
  first two reads.
* `Logged`: every logged write was made, is still to be made by the write delta, or gave way
  to a later write of its key that was or will be.
-/

namespace Holt
namespace Checkpoint

open Function List PrefixForest Holt.Tree

variable {γ : Type*} {root : γ} {base : Key → Option Record} {s : Engine γ}

/-! ## Frames -/

section Frames

variable [DecidableEq γ]

/-- The blobs of the tree, what they hold, and what of it is stored. -/
structure Frames (root : γ) (base : Key → Option Record) (s : Engine γ) : Prop where
  mgr : Store.Inv s.Detached s.mgr
  rooted : Rooted s.path s.live root
  oneParent : OneParent s.live
  contents : lookupBlobs s.live root = applyWrites base s.applied
  known : ∀ g, s.mgr.cache g ≠ none → g ∈ s.allocated
  detachedKnown : ∀ g, s.Detached g → g ∈ s.allocated
  durable : s.needsFlush = false → s.durable = s.mgr.store

lemma applyWrites_append (m : Key → Option Record) (ws : List RecordWrite) (w : RecordWrite) :
    applyWrites m (ws ++ [w]) = update (applyWrites m ws) w.key w.record := by
  simp [applyWrites]

variable {t : ℕ} {g : γ} {blob : Blob γ}

lemma target_eq_some (h : s.target t = some (g, blob)) :
    (∃ role, s.roles[t]? = some role ∧ role.writes = true) ∧
      s.mgr.threads[t]? = some (.pinned g) ∧ s.live g = some blob := by
  unfold Engine.target at h
  split at h <;> try contradiction
  next role g' hrole hthread =>
    split_ifs at h with hw
    obtain ⟨b, hb, heq⟩ := Option.map_eq_some_iff.mp h
    cases heq
    exact ⟨⟨role, hrole, hw⟩, hthread, hb⟩

variable {m : Store.Manager γ (Blob γ)}

lemma step_mutate {m' : Store.Manager γ (Blob γ)} {image : Blob γ}
    (hthread : m.threads[t]? = some (.pinned g))
    (hstep : Store.step m (.mutate t image) = some m') :
    ∃ c, m.cache g = some c ∧ m' = { m.setThread t (.mutated g) with
      cache := update m.cache g (some ⟨image, c.version + 1⟩) } := by
  simp only [Store.step, Store.threadStep, Store.checkpointStep, Option.or_none, hthread] at hstep
  obtain ⟨c, hc, rfl⟩ := Option.map_eq_some_iff.mp hstep
  exact ⟨c, hc, rfl⟩

lemma live_eq_some :
    s.live g = some blob ↔ ¬ s.Detached g ∧ ∃ c, s.mgr.cache g = some c ∧ c.image = blob := by
  unfold Engine.live
  split_ifs with h
  · simp [h]
  · simp [h, Option.map_eq_some_iff]

variable {s' : Engine γ}

lemma live_update {c : Store.CachedBlob (Blob γ)} (hdet : ∀ h, s'.Detached h ↔ s.Detached h)
    (hcache : s'.mgr.cache = update s.mgr.cache g (some c)) (hg : ¬ s.Detached g) :
    s'.live = update s.live g (some c.image) := by
  funext h
  simp only [Engine.live, hdet, hcache]
  rcases eq_or_ne h g with rfl | hne
  · simp [hg]
  · rw [update_of_ne hne, update_of_ne hne]
    rfl

variable {mgr : Store.Manager γ (Blob γ)} {applied : List RecordWrite} {roles : List Role}
  {nextSeq : ℕ} {flush : Option (ℕ × List DeltaOp)}

variable (inv : Frames root base s)
include inv

variable (htarget : s.target t = some (g, blob))
include htarget

/-- The pinned blob gets a new image, and the rest of the engine goes on. -/
lemma Frames.mutate {image : Blob γ} (hstep : Store.step s.mgr (.mutate t image) = some mgr)
    (hrooted : Rooted s.path (update s.live g (some image)) root)
    (hparent : OneParent (update s.live g (some image)))
    (hcontents : lookupBlobs (update s.live g (some image)) root =
      applyWrites base applied) : Frames root base { s with
        mgr := mgr, nextSeq := nextSeq, applied := applied, roles := roles, flush := flush } := by
  obtain ⟨-, hthread, hlive⟩ := target_eq_some htarget
  obtain ⟨hg, -⟩ := live_eq_some.mp hlive
  have hguard : Store.NoWriteSinceRead s.mgr (.mutate t image) := trivial
  have hmgr := Store.inv_step inv.mgr hguard hstep
  obtain ⟨c, hc, rfl⟩ := step_mutate hthread hstep
  have hlive' : Engine.live { s with
      mgr := { s.mgr.setThread t (.mutated g) with
        cache := update s.mgr.cache g (some ⟨image, c.version + 1⟩) } } =
      update s.live g (some image) := by
    exact live_update (c := ⟨image, c.version + 1⟩) (fun _ => Iff.rfl) rfl hg
  refine ⟨hmgr, hlive'.symm ▸ hrooted, hlive'.symm ▸ hparent, hlive'.symm ▸ hcontents,
    fun h hh => inv.known h fun hnone => hh ?_, inv.detachedKnown, inv.durable⟩
  have hne : h ≠ g := by
    rintro rfl
    simp [hc] at hnone
  simpa [update_of_ne hne] using hnone

lemma Frames.writeRecord {key : Key} {r : Option Record} {seq : ℕ}
    (howner : ownerOf s.live (searchKey key).length root (searchKey key) = some g)
    (hstep : Store.step s.mgr (.mutate t (blob.setRecord (searchKey key) r)) = some mgr) :
    Frames root base { s with
      mgr := mgr, nextSeq := nextSeq, applied := s.applied ++ [⟨key, r, seq⟩], roles := roles,
      flush := flush } := by
  obtain ⟨-, -, hlive⟩ := target_eq_some htarget
  have hwrite : update s.live g (some (blob.setRecord (searchKey key) r)) =
      PrefixForest.write s.live root (searchKey key) r := by
    simp [PrefixForest.write, howner, hlive]
  refine inv.mutate htarget hstep ?_ ?_ ?_
  · rw [hwrite]
    exact inv.rooted.write _ _
  · rw [hwrite]
    exact inv.oneParent.write inv.rooted _ _
  · rw [hwrite, applyWrites_append, ← inv.contents]
    funext k
    rw [lookupBlobs_write inv.rooted, update_apply]

lemma Frames.compact (hstep : Store.step s.mgr (.mutate t blob) = some mgr) :
    Frames root base { s with mgr := mgr } := by
  obtain ⟨-, -, hlive⟩ := target_eq_some htarget
  have hsame : update s.live g (some blob) = s.live := by
    rw [← hlive, update_eq_self]
  exact inv.mutate htarget hstep (hsame.symm ▸ inv.rooted) (hsame.symm ▸ inv.oneParent)
    (hsame.symm ▸ inv.contents)

lemma Frames.merge {c : γ} {child : Blob γ} {p : List Byte} (hchild : s.live c = some child)
    (hedge : (p, c) ∈ blob.edges) (hleaf : child.edges = [])
    (hstep : Store.step s.mgr (.mutate t (blob.absorb p child)) = some mgr)
    (hs' : s' = { s with mgr := mgr, staged := s.staged ++ [(g, c)] }) : Frames root base s' := by
  obtain ⟨-, hthread, hlive⟩ := target_eq_some htarget
  obtain ⟨hg, -⟩ := live_eq_some.mp hlive
  obtain ⟨-, cc, hcc, -⟩ := live_eq_some.mp hchild
  obtain ⟨d, hd, hm⟩ := step_mutate hthread hstep
  have hcache : s'.mgr.cache =
      update s.mgr.cache g (some ⟨blob.absorb p child, d.version + 1⟩) := by
    rw [hs', hm]
  have hdet : ∀ h, s'.Detached h ↔ s.Detached h ∨ h = c := by
    intro h
    simp only [hs', Engine.Detached, map_append, mem_append, map_cons,
      map_nil, mem_singleton, or_assoc]
  have hfold : s'.live = PrefixForest.fold s.live g blob p child c := by
    funext h
    simp only [Engine.live, hdet, PrefixForest.fold, PrefixForest.absorb, hcache]
    rcases eq_or_ne h c with rfl | hhc
    · simp
    · rw [update_of_ne hhc]
      rcases eq_or_ne h g with rfl | hhg
      · simp [hg, hhc]
      · rw [update_of_ne hhg, update_of_ne hhg]
        simp [hhc, Engine.live]
  have hguard : Store.NoWriteSinceRead s.mgr (.mutate t (blob.absorb p child)) := trivial
  subst hs'
  refine ⟨?_, ?_, ?_, ?_, ?_, ?_, fun hn => (inv.durable hn).trans (by rw [hm]; rfl)⟩
  · exact (Store.inv_step inv.mgr hguard hstep).mono (fun h _ _ hh => (hdet h).mpr (.inl hh))
  · exact hfold.symm ▸ inv.rooted.fold inv.oneParent hlive hchild hedge
  · exact hfold.symm ▸ inv.oneParent.fold hlive hleaf
  · rw [hfold]
    refine Eq.trans ?_ inv.contents
    funext key
    exact congrFun (inv.rooted.contents_fold inv.oneParent hlive hchild hedge) (searchKey key)
  · intro h hh
    refine inv.known h (fun hnone => hh ?_)
    have hne : h ≠ g := by
      rintro rfl
      simp [hd] at hnone
    exact (congrFun hcache h).trans (by rw [update_of_ne hne, hnone])
  · intro h hh
    rcases (hdet h).mp hh with hh | rfl
    · exact inv.detachedKnown h hh
    · exact inv.known h (by simp [hcc])

omit htarget in
lemma Frames.live_ne_none (h : s.live g ≠ none) : g ∈ s.allocated := by
  obtain ⟨blob, hb⟩ := Option.ne_none_iff_exists'.mp h
  obtain ⟨-, c, hc, -⟩ := live_eq_some.mp hb
  exact inv.known g (by simp [hc])

lemma Frames.spill {c : γ} {p : List Byte} (hc : c ∉ s.allocated) (hbelow : s.path g <+: p)
    (hdeeper : (s.path g).length < p.length) (hun : ∀ e ∈ blob.edges, ¬ e.1 <+: p)
    (hstep : Store.step (install s.mgr c (blob.below p) s.nextSeq) (.mutate t (blob.spill p c)) =
      some mgr) (hs' : s' = { s with
      mgr := mgr
      path := update s.path c p
      allocated := c :: s.allocated }) : Frames root base s' := by
  obtain ⟨-, hthread, hlive⟩ := target_eq_some htarget
  obtain ⟨hg, cg, hcg, -⟩ := live_eq_some.mp hlive
  have hnew : s.mgr.cache c = none := by
    by_contra h
    exact hc (inv.known c h)
  have hgc : g ≠ c := by
    rintro rfl
    simp [hnew] at hcg
  have hspill : Spillable s.path s.live g blob p c := by
    refine ⟨hlive, ?_, fun h pg hh q hq => ?_, hbelow, hdeeper, hun⟩
    · by_contra h
      exact hc (inv.live_ne_none h)
    · exact hc (inv.live_ne_none (inv.rooted.closed h pg hh q c hq))
  have hinstall : Store.Inv s.Detached (install s.mgr c (blob.below p) s.nextSeq) :=
    inv.mgr.insertWith hnew
      (fun h hh => by rw [Store.mergeSeq, update_of_ne hh])
      (.inr (by simp [Store.mergeSeq]))
  have hthread' : (install s.mgr c (blob.below p) s.nextSeq).threads[t]? = some (.pinned g) :=
    hthread
  obtain ⟨d, -, hm⟩ := step_mutate hthread' hstep
  have hcache : s'.mgr.cache = update
      (update s.mgr.cache c (some ⟨blob.below p, 0⟩)) g
      (some ⟨blob.spill p c, d.version + 1⟩) := by
    rw [hs', hm]
    rfl
  have hlive' : s'.live = PrefixForest.spill s.live g blob p c := by
    have hcd : ¬ s.Detached c := fun h => hc (inv.detachedKnown c h)
    have hdet : ∀ h, s'.Detached h ↔ s.Detached h := fun h => by subst hs'; rfl
    funext h
    simp only [Engine.live, hdet, PrefixForest.spill, hcache]
    rcases eq_or_ne h g with rfl | hhg
    · simp [hg]
    · rw [update_of_ne hhg, update_of_ne hhg]
      rcases eq_or_ne h c with rfl | hhc
      · simp [hcd]
      · rw [update_of_ne hhc, update_of_ne hhc]
        rfl
  have hguard : Store.NoWriteSinceRead (install s.mgr c (blob.below p) s.nextSeq)
      (.mutate t (blob.spill p c)) := trivial
  subst hs'
  refine ⟨Store.inv_step hinstall hguard hstep, ?_, ?_, ?_, ?_, ?_,
    fun hn => (inv.durable hn).trans (by rw [hm]; rfl)⟩
  · exact hlive'.symm ▸ inv.rooted.spill hspill
  · exact hlive'.symm ▸ inv.oneParent.spill inv.rooted hspill
  · rw [hlive']
    refine Eq.trans ?_ inv.contents
    funext key
    exact congrFun (inv.rooted.contents_spill hspill) (searchKey key)
  · intro h hh
    rcases eq_or_ne h c with rfl | hhc
    · exact mem_cons_self
    · refine mem_cons_of_mem _ (inv.known h (fun hnone => hh ?_))
      have hhg : h ≠ g := by
        rintro rfl
        simp [hcg] at hnone
      rw [hcache, update_of_ne hhg, update_of_ne hhc, hnone]
  · exact fun h hh => mem_cons_of_mem _ (inv.detachedKnown h hh)

omit htarget

/-- A step that leaves the cached blobs and the tree alone. -/
lemma Frames.keep (hmgr : Store.Inv s.Detached s'.mgr) (hcache : s'.mgr.cache = s.mgr.cache)
    (hdet : ∀ h, s'.Detached h ↔ s.Detached h) (hpath : s'.path = s.path)
    (halloc : s'.allocated = s.allocated)
    (hcontents : applyWrites base s'.applied = applyWrites base s.applied)
    (hdurable : s'.needsFlush = false → s'.durable = s'.mgr.store) : Frames root base s' := by
  have hlive : s'.live = s.live := by
    funext h
    simp only [Engine.live, hdet, hcache]
  refine ⟨hmgr.mono (fun h _ _ => (hdet h).mpr), ?_, hlive.symm ▸ inv.oneParent, ?_, ?_, ?_,
    hdurable⟩
  · rw [hlive, hpath]
    exact inv.rooted
  · rw [hlive, hcontents]
    exact inv.contents
  · rw [hcache, halloc]
    exact inv.known
  · intro h hh
    rw [halloc]
    exact inv.detachedKnown h ((hdet h).mp hh)

lemma Frames.same (hmgr : Store.Inv s.Detached s'.mgr)
    (hsame : (s'.mgr.cache, s'.staged, s'.retired, s'.path, s'.allocated, s'.applied) =
      (s.mgr.cache, s.staged, s.retired, s.path, s.allocated, s.applied))
    (hdurable : s'.needsFlush = false → s'.durable = s'.mgr.store) : Frames root base s' := by
  simp only [Prod.mk.injEq] at hsame
  obtain ⟨hcache, hstaged, hretired, hpath, halloc, happlied⟩ := hsame
  refine inv.keep hmgr hcache (fun h => ?_) hpath halloc (by rw [happlied]) hdurable
  rw [Engine.Detached, Engine.Detached, hstaged, hretired]

/-- `mark_dirty` retires what its frame has absorbed. -/
lemma Frames.markDirty {seq : ℕ} (hstep : Store.step s.mgr (.markDirty t seq) = some mgr) :
    Frames root base { s with
      mgr := mgr
      staged := s.staged.filter (fun e => e.1 ≠ g)
      retired := s.retired ++ (s.staged.filter (fun e => e.1 = g)).map Prod.snd } := by
  have hframe : mgr.cache = s.mgr.cache ∧ mgr.store = s.mgr.store := by
    simp only [Store.step, Store.threadStep, Store.checkpointStep, Option.or_none] at hstep
    split at hstep <;> try contradiction
    split at hstep <;> cases hstep <;> exact ⟨rfl, rfl⟩
  have hguard : Store.NoWriteSinceRead s.mgr (.markDirty t seq) := trivial
  refine inv.keep (Store.inv_step inv.mgr hguard hstep) hframe.1 ?_ rfl rfl rfl
    (fun hn => (inv.durable hn).trans hframe.2.symm)
  intro h
  simp only [Engine.Detached, mem_append, List.mem_map, mem_filter, decide_eq_true_eq]
  constructor
  · rintro ((h' | ⟨e, ⟨he, -⟩, rfl⟩) | ⟨e, ⟨he, -⟩, rfl⟩)
    · exact .inl h'
    · exact .inr ⟨e, he, rfl⟩
    · exact .inr ⟨e, he, rfl⟩
  · rintro (h' | ⟨e, he, rfl⟩)
    · exact .inl (.inl h')
    · rcases eq_or_ne e.1 g with heq | hne
      · exact .inl (.inr ⟨e, ⟨he, heq⟩, rfl⟩)
      · exact .inr ⟨e, ⟨he, hne⟩, rfl⟩

lemma Frames.skipDelta {op : DeltaOp} {rest : List DeltaOp} (hrecord : op.entry.record = none)
    (habsent : lookupBlobs s.live root op.key = none) :
    Frames root base { s with
      applied := s.applied ++ [stagedWrite op]
      flush := some (t, rest) } := by
  refine inv.keep inv.mgr rfl (fun h => Iff.rfl) rfl rfl ?_ inv.durable
  rw [applyWrites_append, ← inv.contents, stagedWrite, hrecord, ← habsent, update_eq_self]

/-- What pins and the entries of rounds do to the buffer manager: they leave the cache alone
and nobody's mutation unmarked, take flushing references away, and make a blob dirty or write
the store in one step each. -/
structure Ungated (m m' : Store.Manager γ (Blob γ)) (a : Store.Action γ (Blob γ)) : Prop where
  guard : Store.NoWriteSinceRead m a
  cache : m'.cache = m.cache
  threads : ∀ (t : ℕ) (g : γ), m'.threads[t]? = some (.mutated g) →
    m.threads[t]? = some (.mutated g)
  flushing : ∀ g, m'.flushing g ≤ m.flushing g
  dirty : (∀ e, a ≠ .restoreDirty e) → ∀ g, m.dirty g = none → m'.dirty g = none
  store : isStoreWrite a = false → m'.store = m.store
  held : (isStoreWrite a = true ∨ ∃ e, a = .restoreDirty e) →
    ∃ x ∈ m.entries, x.holds x.guid = true

omit [DecidableEq γ] inv in
lemma mutated_of_set {x : Store.Thread γ (Blob γ)} (hx : ∀ g, x ≠ .mutated g) (t' : ℕ) (g : γ)
    (h : (m.setThread t x).threads[t']? = some (.mutated g)) :
    m.threads[t']? = some (.mutated g) := by
  rcases Table.getElem?_set_cases h with ⟨-, heq⟩ | ⟨-, h'⟩
  · exact absurd heq.symm (hx g)
  · exact h'

omit inv in
lemma flushing_sub_le (flushing : γ → ℕ) (g h : γ) :
    update flushing g (flushing g - 1) h ≤ flushing h := by
  rcases eq_or_ne h g with rfl | hne
  · simp
  · rw [update_of_ne hne]

omit inv in
lemma ungated_of_step {m' : Store.Manager γ (Blob γ)} {a : Store.Action γ (Blob γ)}
    (ha : ungated a = true) (hstep : Store.step m a = some m') : Ungated m m' a := by
  cases a <;> simp only [Store.step, Store.threadStep, Store.checkpointStep, Option.or_none,
    Option.none_or] at hstep
  case pinResident | unpin =>
    split at hstep <;> try contradiction
    cases hstep
    exact ⟨trivial, rfl, mutated_of_set (by simp), fun _ => le_rfl, fun _ _ h => h, fun _ => rfl,
      by simp [isStoreWrite]⟩
  case beginBatch | endBatch =>
    split at hstep <;> try contradiction
    cases hstep
    exact ⟨trivial, rfl, fun _ _ h => h, fun _ => le_rfl, fun _ _ h => h, fun _ => rfl,
      by simp [isStoreWrite]⟩
  case cloneBytes | checkCurrent =>
    repeat' split at hstep <;> try contradiction
    obtain ⟨c, -, rfl⟩ := Option.map_eq_some_iff.mp hstep
    split_ifs <;>
      exact ⟨trivial, rfl, fun _ _ h => h, fun _ => le_rfl, fun _ _ h => h, fun _ => rfl,
        by simp [isStoreWrite]⟩
  case writeBlob =>
    split at hstep <;> try contradiction
    next g seq version bytes hx =>
      cases hstep
      exact ⟨trivial, rfl, fun _ _ h => h, fun _ => le_rfl, fun _ _ h => h,
        by simp [isStoreWrite],
        fun _ => ⟨_, mem_of_getElem? hx, by simp [Store.Entry.holds]⟩⟩
  case retire =>
    split at hstep <;> try contradiction
    next g seq version bytes hx =>
      obtain ⟨c, -, rfl⟩ := Option.map_eq_some_iff.mp hstep
      have hless : ∀ h, m.dirty h = none → update m.dirty g none h = none := by
        intro h hh
        rcases eq_or_ne h g with rfl | hne
        · simp
        · rwa [update_of_ne hne]
      split_ifs
      · exact ⟨trivial, rfl, fun _ _ h => h, flushing_sub_le _ g, fun _ => hless, fun _ => rfl,
          by simp [isStoreWrite]⟩
      · exact ⟨trivial, rfl, fun _ _ h => h, flushing_sub_le _ g, fun _ _ h => h, fun _ => rfl,
          by simp [isStoreWrite]⟩
      · exact ⟨trivial, rfl, fun _ _ h => h, fun _ => le_rfl, fun _ _ h => h, fun _ => rfl,
          by simp [isStoreWrite]⟩
  case restoreDirty e =>
    split at hstep <;> try contradiction
    next g seq hx =>
      cases hstep
      exact ⟨trivial, rfl, fun _ _ h => h, flushing_sub_le _ g, fun h => absurd rfl (h e),
        fun _ => rfl, fun _ => ⟨_, mem_of_getElem? hx, by simp [Store.Entry.holds]⟩⟩
  all_goals simp [ungated] at ha

lemma Frames.manager {a : Store.Action γ (Blob γ)} (ha : ungated a = true)
    (hstep : Store.step s.mgr a = some mgr) :
    Frames root base { s with mgr := mgr, needsFlush := s.needsFlush || isStoreWrite a } := by
  have hungated := ungated_of_step ha hstep
  refine inv.keep (Store.inv_step inv.mgr hungated.guard hstep) hungated.cache (fun h => Iff.rfl)
    rfl rfl rfl (fun hn => ?_)
  obtain ⟨hneeds, hwrite⟩ := Bool.or_eq_false_iff.mp hn
  exact (inv.durable hneeds).trans (hungated.store hwrite).symm

lemma Frames.reclaim (hret : g ∈ s.retired) (hprot : s.mgr.isProtected g = false)
    (hpins : s.mgr.threads.all (fun x => !x.pins g) = true) (hs' : s' = { s with
      mgr := { s.mgr with
        cache := update s.mgr.cache g none
        store := update s.mgr.store g none
        writes := update s.mgr.writes g (s.mgr.writes g + 1) }
      retired := s.retired.filter (fun h => h ≠ g)
      needsFlush := true }) : Frames root base s' := by
  have hmgr : Store.Inv s.Detached s'.mgr := by
    rw [hs']
    exact (inv.mgr.evict hprot hpins).delete (update_self _ _ _)
  have hdet : ∀ h, s'.Detached h → s.Detached h := by
    rw [hs']
    rintro h (hh | hh)
    · exact .inl (mem_filter.mp hh).1
    · exact .inr hh
  have hback : ∀ h, h ≠ g → s.Detached h → s'.Detached h := by
    rw [hs']
    rintro h hne (hh | hh)
    · exact .inl (mem_filter.mpr ⟨hh, by simpa using hne⟩)
    · exact .inr hh
  have hlive : s'.live = s.live := by
    funext h
    rcases eq_or_ne h g with rfl | hne
    · have hgone : s.Detached h := .inl hret
      simp [Engine.live, hs', hgone]
    · have hiff : s'.Detached h ↔ s.Detached h := ⟨hdet h, hback h hne⟩
      simp only [Engine.live, hiff]
      simp [hs', update_of_ne hne]
  subst hs'
  refine ⟨hmgr.mono ?_, hlive.symm ▸ inv.rooted, hlive.symm ▸ inv.oneParent,
    hlive.symm ▸ inv.contents, ?_, fun h hh => inv.detachedKnown h (hdet h hh), by simp⟩
  · intro h c hc hh
    refine hback h ?_ hh
    rintro rfl
    simp at hc
  · intro h hh
    refine inv.known h (fun hnone => hh ?_)
    rcases eq_or_ne h g with rfl | hne
    · simp
    · simpa [update_of_ne hne] using hnone

end Frames

/-! ## Admission -/

section Admission

/-- The checkpoint side is exclusive. -/
def Alone (roles : List Role) : Prop :=
  ∀ (i j n : ℕ) (r : Role), roles[i]? = some (.checkpoint n) → roles[j]? = some r →
    r ≠ .outside → i = j

/-- What a thread knows after the steps of the test it has passed. -/
structure Tested (s : Engine γ) (n : ℕ) : Prop where
  dirty : 2 ≤ n → ∀ g, s.mgr.dirty g = none
  flushing : 3 ≤ n → ∀ g, s.mgr.flushing g = 0
  delta : 5 ≤ n → s.pending = []
  needsFlush : 6 ≤ n → s.needsFlush = false

/-- Who is inside the gate, and what tests have found. -/
structure Admission (s : Engine γ) : Prop where
  alone : Alone s.roles
  marking : ∀ (t : ℕ) (g : γ), s.mgr.threads[t]? = some (.mutated g) →
    ∃ r, s.roles[t]? = some r ∧ r.writes = true
  flusher : ∀ t ops, s.flush = some (t, ops) → ∃ r, s.roles[t]? = some r ∧ r.writes = true
  tested : ∀ (t n : ℕ), s.roles[t]? = some (.checkpoint n) → Tested s n

lemma tested_zero : Tested s 0 :=
  ⟨by simp, by simp, by simp, by simp⟩

lemma Tested.setRole {n : ℕ} (h : Tested s n) (t : ℕ) (r : Role) : Tested (s.setRole t r) n :=
  { h with }

variable {r : Role}

lemma Role.ne_outside_of_writes (h : r.writes = true) : r ≠ .outside := by
  rintro rfl
  simp [Role.writes] at h

variable {roles : List Role} {t : ℕ}

/-- While a thread may change frames, no test is under way. -/
lemma Alone.passed_eq_zero (h : Alone roles) {i n : ℕ} (hr : roles[t]? = some r)
    (hw : r.writes = true) (hi : roles[i]? = some (.checkpoint n)) : n = 0 := by
  obtain rfl := h i t n r hi hr (Role.ne_outside_of_writes hw)
  cases hr.symm.trans hi
  cases n with
  | zero => rfl
  | succ n => simp [Role.writes] at hw

variable {r' : Role}

lemma Alone.setWriter (h : Alone roles) (hr : roles[t]? = some r) (hout : r ≠ .outside)
    (hcheck : r'.onCheckpointSide = false) : Alone (roles.set t r') := by
  intro i j n q hi hj hq
  rcases Table.getElem?_set_cases hi with ⟨-, heq⟩ | ⟨hti, hi'⟩
  · rw [← heq] at hcheck
    simp [Role.onCheckpointSide] at hcheck
  · exact absurd (h i t n r hi' hr hout) hti

/-- The step of a thread that may change frames, which keeps every role or changes its own on
the writer side. -/
lemma Admission.byWriter (adm : Admission s) {s' : Engine γ} (hr : s.roles[t]? = some r)
    (hw : r.writes = true)
    (hroles : s'.roles = s.roles ∨ ∃ u st, s'.roles = s.roles.set t (.writer u st))
    (hmarking : ∀ (i : ℕ) (g : γ), s'.mgr.threads[i]? = some (.mutated g) → i = t ∨
      s.mgr.threads[i]? = some (.mutated g))
    (hflusher : ∀ i ops, s'.flush = some (i, ops) → i = t ∨ ∃ ops', s.flush = some (i, ops')) :
    Admission s' := by
  obtain ⟨htlt, hget⟩ := List.getElem?_eq_some_iff.mp hr
  obtain ⟨r', hset, hw', halone⟩ :
      ∃ r', s'.roles = s.roles.set t r' ∧ r'.writes = true ∧ Alone s'.roles := by
    rcases hroles with h | ⟨u, st, h⟩
    · exact ⟨r, h.trans (hget ▸ set_getElem_self htlt).symm, hw, h ▸ adm.alone⟩
    · exact ⟨_, h, rfl, h ▸ adm.alone.setWriter hr (Role.ne_outside_of_writes hw) rfl⟩
  have hself : s'.roles[t]? = some r' := by rw [hset, getElem?_set_self htlt]
  have hkeep : ∀ i, (i = t ∨ ∃ q : Role, s.roles[i]? = some q ∧ q.writes = true) →
      ∃ q : Role, s'.roles[i]? = some q ∧ q.writes = true := by
    intro i h
    rcases eq_or_ne i t with rfl | hti
    · exact ⟨r', hself, hw'⟩
    · rw [hset, getElem?_set_ne hti.symm]
      exact h.resolve_left hti
  refine ⟨halone, fun i g hi => hkeep i ((hmarking i g hi).imp_right (adm.marking i g)),
    fun i ops hi => hkeep i ((hflusher i ops hi).imp_right fun ⟨ops', h⟩ => adm.flusher i ops' h),
    fun i n hi => ?_⟩
  obtain rfl := halone.passed_eq_zero hself hw' hi
  exact tested_zero

/-- A step outside the gate: roles and delta stay, no test is contradicted. -/
lemma Admission.ungated (adm : Admission s) {s' : Engine γ} (hroles : s'.roles = s.roles)
    (hflush : s'.flush = s.flush)
    (hmarking : ∀ (i : ℕ) (g : γ), s'.mgr.threads[i]? = some (.mutated g) →
      s.mgr.threads[i]? = some (.mutated g))
    (htested : ∀ (t n : ℕ), s.roles[t]? = some (.checkpoint n) → Tested s n → Tested s' n) :
    Admission s' := by
  refine ⟨hroles ▸ adm.alone, fun i g hi => ?_, fun i ops hi => ?_, fun i n hi => ?_⟩
  · rw [hroles]
    exact adm.marking i g (hmarking i g hi)
  · rw [hroles]
    exact adm.flusher i ops (hflush ▸ hi)
  · rw [hroles] at hi
    exact htested i n hi (adm.tested i n hi)

lemma Admission.setRole (adm : Admission s) (hr : s.roles[t]? = some r)
    (halone : Alone (s.roles.set t r'))
    (hquiet : r'.writes = true ∨ (∀ g, s.mgr.threads[t]? ≠ some (.mutated g)) ∧
      ∀ ops, s.flush ≠ some (t, ops)) (htested : ∀ n, r' = .checkpoint n → Tested s n) :
    Admission (s.setRole t r') := by
  have htlt : t < s.roles.length := (List.getElem?_eq_some_iff.mp hr).1
  have hkeep : ∀ i : ℕ, (i = t → r'.writes = true) →
      (∃ q : Role, s.roles[i]? = some q ∧ q.writes = true) →
      ∃ q : Role, (s.roles.set t r')[i]? = some q ∧ q.writes = true := by
    intro i ht h
    rcases eq_or_ne t i with rfl | hti
    · exact ⟨r', getElem?_set_self htlt, ht rfl⟩
    · rwa [getElem?_set_ne hti]
  refine ⟨halone, fun i g hi => ?_, fun i ops hi => ?_, fun i n hi => ?_⟩
  · refine hkeep i ?_ (adm.marking i g hi)
    rintro rfl
    exact hquiet.resolve_right (fun h => h.1 g hi)
  · refine hkeep i ?_ (adm.flusher i ops hi)
    rintro rfl
    exact hquiet.resolve_right (fun h => h.2 ops hi)
  · rcases Table.getElem?_set_cases hi with ⟨-, heq⟩ | ⟨-, hi'⟩
    · exact (htested n heq.symm).setRole t r'
    · exact (adm.tested i n hi').setRole t r'

lemma alone_enter
    (hall : ∀ q ∈ roles, q = .outside ∨ q.onCheckpointSide = false ∧ r.onCheckpointSide = false) :
    Alone (roles.set t r) := by
  intro i j n q hi hj hq
  rcases Table.getElem?_set_cases hi with ⟨rfl, heq⟩ | ⟨-, hi'⟩
  · rcases Table.getElem?_set_cases hj with ⟨rfl, -⟩ | ⟨-, hj'⟩
    · rfl
    · rcases hall q (mem_of_getElem? hj') with h | ⟨-, h⟩
      · exact absurd h hq
      · rw [← heq] at h
        simp [Role.onCheckpointSide] at h
  · rcases hall _ (mem_of_getElem? hi') with h | ⟨h, -⟩
    · simp at h
    · simp [Role.onCheckpointSide] at h

/-- Leaving, or passing a test, keeps the checkpoint side exclusive. -/
lemma Alone.setSame (h : Alone roles) {m : ℕ} (hr : roles[t]? = some r)
    (hr' : r' = .outside ∨ r = .checkpoint m) : Alone (roles.set t r') := by
  intro i j n q hi hj hq
  rcases Table.getElem?_set_cases hi with ⟨rfl, heq⟩ | ⟨hit, hi'⟩
  · rcases Table.getElem?_set_cases hj with ⟨rfl, -⟩ | ⟨-, hj'⟩
    · rfl
    · rcases hr' with rfl | rfl
      · simp at heq
      · exact h i j m q hr hj' hq
  · rcases Table.getElem?_set_cases hj with ⟨rfl, rfl⟩ | ⟨-, hj'⟩
    · rcases hr' with rfl | rfl
      · exact absurd rfl hq
      · exact h i j n _ hi' hr nofun
    · exact h i j n q hi' hj' hq

end Admission

/-! ## The log -/

section Logged

/-- The write has been made, or a later one of its key. -/
def Made (applied : List RecordWrite) (w : RecordWrite) : Prop :=
  ∃ w' ∈ applied, w'.key = w.key ∧ (w' = w ∨ w.seq < w'.seq)

/-- A staged operation stands for the write, or for a later one of its key. -/
def StandsFor (d : DeltaOp) (w : RecordWrite) : Prop :=
  d.key = w.key ∧ (stagedWrite d = w ∨ w.seq < d.entry.seq)

/-- The write delta will make the write. -/
def Due (s : Engine γ) (w : RecordWrite) : Prop :=
  ∃ d, StandsFor d w ∧ (d ∈ s.pending ∨ (∃ t ops, s.flush = some (t, ops) ∧ d ∈ ops) ∨
    ∃ r ∈ s.roles, Role.staging r = some d)

/-- The log, the write delta and the history of writes. -/
structure Logged (s : Engine γ) : Prop where
  once : StagedOnce s.pending
  flushOnce : StagedOnce s.flushing
  pendingEmpty : s.flush ≠ none → s.pending = []
  toApply : ∀ t ops, s.flush = some (t, ops) → ∀ d ∈ ops, d ∈ s.flushing
  unstaged : s.flush ≠ none → ∀ r ∈ s.roles, r.staging = none
  pendingSeq : ∀ d ∈ s.pending, d.entry.seq < s.nextSeq
  flushingSeq : ∀ d ∈ s.flushing, d.entry.seq < s.nextSeq
  stagingSeq : ∀ r ∈ s.roles, ∀ d, r.staging = some d → d.entry.seq < s.nextSeq ∧
    ∀ d' ∈ s.pending, d'.key = d.key → d'.entry.seq < d.entry.seq
  stagingKeys : ∀ (i j : ℕ) (r r' : Role) (d d' : DeltaOp), s.roles[i]? = some r →
    s.roles[j]? = some r' → r.staging = some d → r'.staging = some d' → d.key = d'.key → i = j
  unlogged : ∀ r ∈ s.roles, ∀ w ∈ r.unlogged, w ∈ s.applied
  covered : ∀ record ∈ s.wal, ∀ w ∈ record, Made s.applied w ∨ Due s w

variable {applied : List RecordWrite} {w : RecordWrite}

lemma made_of_mem (h : w ∈ applied) : Made applied w :=
  ⟨w, h, rfl, .inl rfl⟩

variable {d : DeltaOp}

/-- Applying a staged operation makes the writes it stands for. -/
lemma StandsFor.made (h : StandsFor d w) (applied : List RecordWrite) :
    Made (applied ++ [stagedWrite d]) w := by
  refine ⟨stagedWrite d, by simp, h.1, ?_⟩
  rcases h.2 with heq | hlt
  · exact .inl heq
  · exact .inr hlt

lemma Made.mono {applied' : List RecordWrite} (h : Made applied w)
    (hsub : ∀ w ∈ applied, w ∈ applied') : Made applied' w := by
  obtain ⟨w', hw', h⟩ := h
  exact ⟨w', hsub w' hw', h⟩

variable (log : Logged s)
include log

lemma Logged.keepDelta {s' : Engine γ}
    (hdelta : (s'.pending, s'.flushing, s'.flush) = (s.pending, s.flushing, s.flush))
    (hseq : s.nextSeq ≤ s'.nextSeq) (happlied : ∀ w ∈ s.applied, w ∈ s'.applied)
    (hstaging : s'.roles.map Role.staging = s.roles.map Role.staging)
    (hunlogged : ∀ r ∈ s'.roles, ∀ w ∈ r.unlogged, w ∈ s'.applied)
    (hwal : ∀ record ∈ s'.wal, record ∈ s.wal ∨ ∀ w ∈ record, w ∈ s'.applied) : Logged s' := by
  simp only [Prod.mk.injEq] at hdelta
  obtain ⟨hpending, hflushing, hflush⟩ := hdelta
  have hback : ∀ (i : ℕ) (q : Role), s'.roles[i]? = some q →
      ∃ q₀, s.roles[i]? = some q₀ ∧ q₀.staging = q.staging := by
    intro i q hq
    have h := congrArg (·[i]?) hstaging
    simpa [hq, eq_comm] using h
  have hmem : ∀ q ∈ s'.roles, ∃ q₀ ∈ s.roles, q₀.staging = q.staging :=
    fun q hq => List.mem_map.mp (hstaging ▸ List.mem_map_of_mem hq)
  have hforth : ∀ q₀ ∈ s.roles, ∃ q ∈ s'.roles, q.staging = q₀.staging :=
    fun q₀ hq₀ => List.mem_map.mp (hstaging.symm ▸ List.mem_map_of_mem hq₀)
  refine ⟨hpending ▸ log.once, hflushing ▸ log.flushOnce, ?_, ?_, ?_, ?_, ?_, ?_, ?_, hunlogged,
    ?_⟩
  · rw [hflush, hpending]
    exact log.pendingEmpty
  · rw [hflush, hflushing]
    exact log.toApply
  · intro hf q hq
    obtain ⟨q₀, hq₀, hst⟩ := hmem q hq
    rw [← hst]
    exact log.unstaged (hflush ▸ hf) q₀ hq₀
  · rw [hpending]
    exact fun d hd => (log.pendingSeq d hd).trans_le hseq
  · rw [hflushing]
    exact fun d hd => (log.flushingSeq d hd).trans_le hseq
  · intro q hq d hd
    obtain ⟨q₀, hq₀, hst⟩ := hmem q hq
    obtain ⟨hlt, hnew⟩ := log.stagingSeq q₀ hq₀ d (hst.trans hd)
    rw [hpending]
    exact ⟨hlt.trans_le hseq, hnew⟩
  · intro i j q q' d d' hi hj hd hd' hkey
    obtain ⟨q₀, hq₀, hst⟩ := hback i q hi
    obtain ⟨q₀', hq₀', hst'⟩ := hback j q' hj
    exact log.stagingKeys i j q₀ q₀' d d' hq₀ hq₀' (hst.trans hd) (hst'.trans hd') hkey
  · intro record hrecord w hw
    rcases hwal record hrecord with hold | hnew
    · rcases log.covered record hold w hw with hmade | ⟨d, hd, hin⟩
      · exact .inl (hmade.mono happlied)
      · refine .inr ⟨d, hd, ?_⟩
        rcases hin with h | ⟨t, ops, hf, h⟩ | ⟨q₀, hq₀, h⟩
        · exact .inl (hpending ▸ h)
        · exact .inr (.inl ⟨t, ops, hflush ▸ hf, h⟩)
        · obtain ⟨q, hq, hst⟩ := hforth q₀ hq₀
          exact .inr (.inr ⟨q, hq, hst.trans h⟩)
    · exact .inl (made_of_mem (hnew w hw))

lemma Logged.same {s' : Engine γ}
    (hsame : (s'.pending, s'.flushing, s'.flush, s'.nextSeq, s'.applied, s'.roles, s'.wal) =
      (s.pending, s.flushing, s.flush, s.nextSeq, s.applied, s.roles, s.wal)) : Logged s' := by
  simp only [Prod.mk.injEq] at hsame
  obtain ⟨hpending, hflushing, hflush, hseq, happlied, hroles, hwal⟩ := hsame
  refine log.keepDelta (by rw [hpending, hflushing, hflush]) hseq.ge (fun w h => happlied ▸ h)
    (by rw [hroles]) ?_ (fun record h => .inl (hwal ▸ h))
  rw [hroles, happlied]
  exact log.unlogged

variable {t : ℕ} {op : DeltaOp}

lemma Logged.applyDelta {rest : List DeltaOp} {mgr : Store.Manager γ (Blob γ)}
    (hflush : s.flush = some (t, op :: rest)) : Logged { s with
      mgr := mgr, applied := s.applied ++ [stagedWrite op], flush := some (t, rest) } := by
  have hsome : s.flush ≠ none := by simp [hflush]
  refine { log with
    pendingEmpty := fun _ => log.pendingEmpty hsome, toApply := ?_,
    unstaged := fun _ => log.unstaged hsome, unlogged := ?_, covered := ?_ }
  · intro i ops hops d hd
    cases hops
    exact log.toApply t _ hflush d (mem_cons_of_mem _ hd)
  · exact fun r hr w hw => mem_append_left _ (log.unlogged r hr w hw)
  · intro record hrecord w hw
    rcases log.covered record hrecord w hw with hmade | ⟨d, hd, hin⟩
    · exact .inl (hmade.mono fun _ h => mem_append_left _ h)
    · rcases hin with h | ⟨i, ops, hf, h⟩ | h
      · exact .inr ⟨d, hd, .inl h⟩
      · cases hflush.symm.trans hf
        rcases mem_cons.mp h with rfl | h
        · exact .inl (hd.made _)
        · exact .inr ⟨d, hd, .inr (.inl ⟨t, rest, rfl, h⟩)⟩
      · exact .inr ⟨d, hd, .inr (.inr h)⟩

/-- A deferred write is logged: the thread now carries it to the delta. -/
lemma Logged.submitStaged (hrole : s.roles[t]? = some (.writer [] none)) (hflush : s.flush = none)
    (hkeys : ∀ r ∈ s.roles, ∀ d, Role.staging r = some d → d.key ≠ op.key)
    (hseq : op.entry.seq = s.nextSeq) : Logged { s with
      wal := s.wal ++ [[stagedWrite op]]
      nextSeq := s.nextSeq + 1
      roles := s.roles.set t (.writer [] (some op)) } := by
  have htlt : t < s.roles.length := (List.getElem?_eq_some_iff.mp hrole).1
  have hmem : ∀ r ∈ s.roles.set t (.writer [] (some op)), r ∈ s.roles ∨ r = .writer [] (some op) :=
    fun r hr => mem_or_eq_of_mem_set hr
  refine ⟨log.once, log.flushOnce, log.pendingEmpty, log.toApply, fun h => absurd hflush h, ?_, ?_,
    ?_, ?_, ?_, ?_⟩
  · exact fun d hd => (log.pendingSeq d hd).trans (Nat.lt_succ_self _)
  · exact fun d hd => (log.flushingSeq d hd).trans (Nat.lt_succ_self _)
  · intro r hr d hd
    rcases hmem r hr with h | rfl
    · obtain ⟨hlt, hnew⟩ := log.stagingSeq r h d hd
      exact ⟨hlt.trans (Nat.lt_succ_self _), hnew⟩
    · cases hd
      exact ⟨hseq ▸ Nat.lt_succ_self _, fun d' hd' _ => hseq ▸ log.pendingSeq d' hd'⟩
  · intro i j r r' d d' hi hj hd hd' hkey
    rcases Table.getElem?_set_cases hi with ⟨rfl, rfl⟩ | ⟨-, hi'⟩
    · rcases Table.getElem?_set_cases hj with ⟨rfl, -⟩ | ⟨-, hj'⟩
      · rfl
      · cases hd
        exact absurd hkey.symm (hkeys r' (mem_of_getElem? hj') d' hd')
    · rcases Table.getElem?_set_cases hj with ⟨rfl, rfl⟩ | ⟨-, hj'⟩
      · cases hd'
        exact absurd hkey (hkeys r (mem_of_getElem? hi') d hd)
      · exact log.stagingKeys i j r r' d d' hi' hj' hd hd' hkey
  · intro r hr w hw
    rcases hmem r hr with h | rfl
    · exact log.unlogged r h w hw
    · simp [Role.unlogged] at hw
  · intro record hrecord w hw
    rcases mem_append.mp hrecord with hold | hnew
    · rcases log.covered record hold w hw with hmade | ⟨d, hd, hin⟩
      · exact .inl hmade
      · refine .inr ⟨d, hd, ?_⟩
        rcases hin with h | h | ⟨r, hr, h⟩
        · exact .inl h
        · exact .inr (.inl h)
        · obtain ⟨i, hi⟩ := mem_iff_getElem?.mp hr
          have hti : t ≠ i := by
            rintro rfl
            cases hrole.symm.trans hi
            simp [Role.staging] at h
          exact .inr (.inr ⟨r, mem_of_getElem? ((getElem?_set_ne hti).trans hi), h⟩)
    · rw [mem_singleton.mp hnew, mem_singleton] at hw
      exact .inr ⟨op, ⟨hw ▸ rfl, .inl hw.symm⟩,
        .inr (.inr ⟨_, mem_set htlt _, rfl⟩)⟩

/-- The carried operation enters the delta and replaces an older one of its key. -/
lemma Logged.stage {unlogged : List RecordWrite}
    (hrole : s.roles[t]? = some (.writer unlogged (some op))) : Logged { s with
      pending := insertPending s.pending op
      roles := s.roles.set t (.writer unlogged none) } := by
  have hrmem := mem_of_getElem? hrole
  obtain ⟨hlt, hnewer⟩ := log.stagingSeq _ hrmem op rfl
  have hflush : s.flush = none := by
    by_contra h
    have := log.unstaged h _ hrmem
    simp [Role.staging] at this
  have hpend : ∀ d ∈ insertPending s.pending op, d ∈ s.pending ∧ d.key ≠ op.key ∨ d = op := by
    intro d hd
    rcases mem_append.mp hd with h | h
    · exact .inl ⟨(mem_filter.mp h).1, by simpa using (mem_filter.mp h).2⟩
    · exact .inr (mem_singleton.mp h)
  -- a role that still carries an operation is another thread's
  have hother : ∀ (i : ℕ) (r : Role) (d : DeltaOp),
      (s.roles.set t (.writer unlogged none))[i]? = some r → r.staging = some d →
      i ≠ t ∧ s.roles[i]? = some r := by
    intro i r d hi hd
    rcases Table.getElem?_set_cases hi with ⟨-, rfl⟩ | ⟨hit, hi'⟩
    · simp [Role.staging] at hd
    · exact ⟨hit, hi'⟩
  refine ⟨stagedOnce_insertPending log.once op, log.flushOnce, fun h => absurd hflush h,
    log.toApply, fun h => absurd hflush h, ?_, log.flushingSeq, ?_, ?_, ?_, ?_⟩
  · intro d hd
    rcases hpend d hd with ⟨h, -⟩ | rfl
    · exact log.pendingSeq d h
    · exact hlt
  · intro r hr d hd
    obtain ⟨i, hi⟩ := mem_iff_getElem?.mp hr
    obtain ⟨hit, hi'⟩ := hother i r d hi hd
    obtain ⟨hdlt, hdnew⟩ := log.stagingSeq r (mem_of_getElem? hi') d hd
    refine ⟨hdlt, fun d' hd' hkey => ?_⟩
    rcases hpend d' hd' with ⟨h, -⟩ | rfl
    · exact hdnew d' h hkey
    · exact absurd (log.stagingKeys i t r _ d d' hi' hrole hd rfl hkey.symm) hit
  · intro i j r r' d d' hi hj hd hd' hkey
    exact log.stagingKeys i j r r' d d' (hother i r d hi hd).2 (hother j r' d' hj hd').2 hd hd' hkey
  · intro r hr w hw
    rcases mem_or_eq_of_mem_set hr with h | rfl
    · exact log.unlogged r h w hw
    · exact log.unlogged _ hrmem w hw
  · intro record hrecord w hw
    have hnew : op ∈ insertPending s.pending op := mem_append_right _ mem_cons_self
    rcases log.covered record hrecord w hw with hmade | ⟨d, hd, hin⟩
    · exact .inl hmade
    · rcases hin with h | h | ⟨r, hr, h⟩
      · by_cases hkey : d.key = op.key
        · -- the older operation gives way
          have hseq : w.seq ≤ d.entry.seq := by
            rcases hd.2 with heq | hlt'
            · exact heq ▸ le_rfl
            · exact hlt'.le
          exact .inr ⟨op, ⟨hkey.symm.trans hd.1,
            .inr (hseq.trans_lt (hnewer d h hkey))⟩, .inl hnew⟩
        · refine .inr ⟨d, hd, .inl (mem_append_left _ (mem_filter.mpr ⟨h, ?_⟩))⟩
          simpa using hkey
      · exact .inr ⟨d, hd, .inr (.inl h)⟩
      · obtain ⟨i, hi⟩ := mem_iff_getElem?.mp hr
        rcases eq_or_ne t i with rfl | hti
        · cases hrole.symm.trans hi
          cases h
          exact .inr ⟨op, hd, .inl hnew⟩
        · exact .inr ⟨d, hd, .inr (.inr
            ⟨r, mem_of_getElem? ((getElem?_set_ne hti).trans hi), h⟩)⟩

lemma Logged.beginFlush (t : ℕ) (hflush : s.flush = none)
    (hunstaged : ∀ r ∈ s.roles, Role.staging r = none) :
    Logged { s with pending := [], flushing := s.pending, flush := some (t, s.pending) } := by
  refine ⟨nodup_nil, log.once, fun _ => rfl, ?_, fun _ => hunstaged, by simp, log.pendingSeq,
    ?_, log.stagingKeys, log.unlogged, ?_⟩
  · intro i ops hops d hd
    cases hops
    exact hd
  · intro r hr d hd
    simp [hunstaged r hr] at hd
  · intro record hrecord w hw
    rcases log.covered record hrecord w hw with hmade | ⟨d, hd, hin⟩
    · exact .inl hmade
    · rcases hin with h | ⟨i, ops, hf, h⟩ | ⟨r, hr, h⟩
      · exact .inr ⟨d, hd, .inr (.inl ⟨t, s.pending, rfl, h⟩)⟩
      · simp [hflush] at hf
      · simp [hunstaged r hr] at h

lemma Logged.finishFlush (hflush : s.flush = some (t, [])) :
    Logged { s with flushing := [], flush := none } := by
  refine ⟨log.once, nodup_nil, by simp, by simp, by simp, log.pendingSeq, by simp,
    log.stagingSeq, log.stagingKeys, log.unlogged, ?_⟩
  intro record hrecord w hw
  rcases log.covered record hrecord w hw with hmade | ⟨d, hd, hin⟩
  · exact .inl hmade
  · rcases hin with h | ⟨i, ops, hf, h⟩ | h
    · exact .inr ⟨d, hd, .inl h⟩
    · cases hflush.symm.trans hf
      simp at h
    · exact .inr ⟨d, hd, .inr (.inr h)⟩

variable {ops pending : List DeltaOp}

omit log

lemma mem_of_mem_foldl_insertPending (h : d ∈ ops.foldl insertPending pending) :
    d ∈ pending ∨ d ∈ ops := by
  induction ops generalizing pending with
  | nil => exact .inl h
  | cons op rest ih =>
    rcases ih h with h | h
    · rcases mem_append.mp h with h | h
      · exact .inl (mem_filter.mp h).1
      · exact .inr (mem_singleton.mp h ▸ mem_cons_self)
    · exact .inr (mem_cons_of_mem _ h)

lemma stagedOnce_foldl_insertPending (h : StagedOnce pending) :
    StagedOnce (ops.foldl insertPending pending) := by
  induction ops generalizing pending with
  | nil => exact h
  | cons op rest ih => exact ih (stagedOnce_insertPending h op)

lemma mem_foldl_insertPending (honce : StagedOnce ops)
    (h : d ∈ ops ∨ d ∈ pending ∧ ∀ op ∈ ops, op.key ≠ d.key) :
    d ∈ ops.foldl insertPending pending := by
  induction ops generalizing pending with
  | nil => exact (h.resolve_left nofun).1
  | cons op rest ih =>
    obtain ⟨hop, hrest⟩ := nodup_cons.mp honce
    refine ih hrest ?_
    rcases h with h | ⟨hd, hne⟩
    · rcases mem_cons.mp h with rfl | h
      · refine .inr ⟨mem_append_right _ mem_cons_self, fun o ho heq => hop ?_⟩
        exact heq ▸ List.mem_map_of_mem ho
      · exact .inl h
    · refine .inr ⟨mem_append_left _ (mem_filter.mpr ⟨hd, ?_⟩),
        fun o ho => hne o (mem_cons_of_mem _ ho)⟩
      simpa using (hne op mem_cons_self).symm

lemma Logged.abortFlush (log : Logged s) (hflush : s.flush = some (t, ops)) : Logged { s with
      pending := s.flushing.foldl insertPending s.pending
      flushing := []
      flush := none } := by
  have hsome : s.flush ≠ none := by simp [hflush]
  refine ⟨stagedOnce_foldl_insertPending log.once, nodup_nil, by simp, by simp, by simp, ?_,
    by simp, ?_, log.stagingKeys, log.unlogged, ?_⟩
  · intro d hd
    rcases mem_of_mem_foldl_insertPending hd with h | h
    · exact log.pendingSeq d h
    · exact log.flushingSeq d h
  · intro r hr d hd
    simp [log.unstaged hsome r hr] at hd
  · intro record hrecord w hw
    rcases log.covered record hrecord w hw with hmade | ⟨d, hd, hin⟩
    · exact .inl hmade
    · rcases hin with h | ⟨i, ops', hf, h⟩ | h
      · simp [log.pendingEmpty hsome] at h
      · cases hflush.symm.trans hf
        exact .inr ⟨d, hd, .inl
          (mem_foldl_insertPending log.flushOnce (.inl (log.toApply t _ hflush d h)))⟩
      · exact .inr ⟨d, hd, .inr (.inr h)⟩

end Logged

end Checkpoint
end Holt
