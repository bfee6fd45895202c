import Holt.Checkpoint.Replay

/-!
# What every image of a session agrees on

`Images` is the invariant of the blobs of a session, wherever an image of them is: cached,
captured, in a wave, or on disk.  Every image fits the region of its blob, and under a key
that no retained record replaces it has the record the key had when the log was empty.  The
images on disk are closed under edges.  So every mix of them is a forest that reads right
under those keys (`Images.recover`), whichever images a crash picks.

The keys that may differ are a parameter `T`, which only grows (`Images.mono`): a write first
adds its keys and then changes the blobs.
-/

namespace Holt
namespace Checkpoint

open Function List PrefixForest Holt.Tree

section Images

variable {γ : Type*} [DecidableEq γ]

/-- An image of blob `g` that is right under all keys outside `T`. -/
structure GoodImage (path : γ → List Byte) (allocated : List γ) (T : Key → Prop)
    (base : Key → Option Record) (g : γ) (blob : Blob γ) : Prop where
  shaped : Shaped path g blob
  known : g ∈ allocated
  named : ∀ p c, (p, c) ∈ blob.edges → c ∈ allocated
  agrees : ∀ key, ¬ T key → path g <+: searchKey key → blob.child? (searchKey key) = none →
    blob.records (searchKey key) = base key

/-- The image is cached, captured, or on its way to the disk. -/
def Session.Holds (s : Session γ) (g : γ) (blob : Blob γ) : Prop :=
  s.live g = some blob ∨ (∃ epoch ∈ s.epochs, (g, blob) ∈ epoch) ∨ (g, blob) ∈ s.entries ∨
    (g, blob) ∈ s.wave ∨ blob ∈ s.disk g

/-- Every crash leaves an image of the blob. -/
def Session.Durable (s : Session γ) (g : γ) : Prop := s.disk g ≠ [] ∧ g ∉ s.fresh

/-- The invariant of the blobs of a session. -/
structure Images (root : γ) (base : Key → Option Record) (T : Key → Prop) (s : Session γ) :
    Prop where
  rooted : Rooted s.path s.live root
  good : ∀ g blob, s.Holds g blob → GoodImage s.path s.allocated T base g blob
  closed : ∀ g, ∀ blob ∈ s.disk g, ∀ p c, (p, c) ∈ blob.edges → s.Durable c
  ready : ∀ e ∈ s.wave, ∀ p c, (p, c) ∈ e.2.edges → s.Durable c
  rootDisk : s.Durable root
  batch : ∀ g ∈ s.durableThisBatch, s.disk g ≠ []
  fresh : ∀ g ∈ s.fresh, g ∈ s.unflushed

variable {root : γ} {base : Key → Option Record} {T : Key → Prop} {s : Session γ}

variable {path : γ → List Byte} {allocated : List γ} {g : γ} {blob : Blob γ}

omit [DecidableEq γ] in
lemma GoodImage.mono {T' : Key → Prop} (h : GoodImage path allocated T base g blob)
    (hT : ∀ key, T key → T' key) : GoodImage path allocated T' base g blob :=
  { h with agrees := fun key hk => h.agrees key (fun ht => hk (hT key ht)) }

variable (inv : Images root base T s)
include inv

omit [DecidableEq γ] in
lemma Images.mono {T' : Key → Prop} (hT : ∀ key, T key → T' key) :
    Images root base T' s :=
  { inv with good := fun g blob h => (inv.good g blob h).mono hT }

omit [DecidableEq γ] in
/-- Whatever a crash recovers is a forest that reads right outside `T`. -/
theorem Images.recover {blobs : Blobs γ} (hrec : Recovers s blobs) :
    Rooted s.path blobs root ∧ ∀ key, ¬ T key → lookupBlobs blobs root key = base key := by
  have hdisk : ∀ g blob, blobs g = some blob → blob ∈ s.disk g := by
    intro g blob hg
    rcases hrec g with ⟨hnone, -⟩ | ⟨b, hb, hsome⟩
    · simp [hnone] at hg
    · cases hsome.symm.trans hg
      exact hb
  have hback : ∀ g, s.Durable g → blobs g ≠ none := by
    intro g hdurable
    rcases hrec g with ⟨-, hnil | hfresh⟩ | ⟨b, -, hsome⟩
    · exact absurd hnil hdurable.1
    · exact absurd hfresh hdurable.2
    · simp [hsome]
  have hgood : ∀ g blob, blobs g = some blob → GoodImage s.path s.allocated T base g blob :=
    fun g blob hg => inv.good g blob (.inr (.inr (.inr (.inr (hdisk g blob hg)))))
  have hrooted : Rooted s.path blobs root :=
    ⟨⟨fun g blob hg => (hgood g blob hg).shaped,
      fun g blob hg p c hpc => hback c (inv.closed g blob (hdisk g blob hg) p c hpc)⟩,
      hback root inv.rootDisk, inv.rooted.all⟩
  refine ⟨hrooted, fun key hkey => ?_⟩
  have hreads := hrooted.reads (searchKey key)
  exact hreads.owned (P := fun v => v = base key) hrooted.shaped
    (fun g blob hg hk hnone => (hgood g blob hg).agrees key hkey hk hnone)
    (by rw [hrooted.all]; exact nil_prefix)

/-! ## Writes -/

omit [DecidableEq γ] inv in
lemma GoodImage.setRecord (h : GoodImage path allocated T base g blob) {key : Key} (hT : T key)
    (r : Option Record) : GoodImage path allocated T base g (blob.setRecord (searchKey key) r) := by
  refine ⟨h.shaped.setRecord _ _, h.known, h.named, fun k hk hp hnone => ?_⟩
  have hne : searchKey k ≠ searchKey key := by
    intro heq
    exact hk (searchKey_inj.mp heq ▸ hT)
  rw [← h.agrees k hk hp hnone]
  exact update_of_ne hne _ _

/-- Writing a record under a key of `T`. -/
lemma Images.writeRecord {key : Key} (hT : T key) (r : Option Record) :
    Images root base T (s.writeRecord root key r) := by
  obtain ⟨g, blob, -, hg, heq⟩ := inv.rooted.write_eq (searchKey key) r
  refine { inv with rooted := inv.rooted.write _ _, good := ?_ }
  rintro h b (hlive | hrest)
  · have hlive' : update s.live g (some (blob.setRecord (searchKey key) r)) h = some b :=
      heq ▸ hlive
    rcases Table.update_cases hlive' with ⟨rfl, rfl⟩ | ⟨-, hlive'⟩
    · exact (inv.good h blob (.inl hg)).setRecord hT r
    · exact inv.good h b (.inl hlive')
  · exact inv.good h b (.inr hrest)

/-! ## Structural changes -/

omit [DecidableEq γ] in
lemma Images.setLive {live : Blobs γ} (hrooted : Rooted s.path live root)
    (hgood : ∀ g blob, live g = some blob →
      s.live g = some blob ∨ GoodImage s.path s.allocated T base g blob) :
    Images root base T { s with live := live } := by
  refine { inv with rooted := hrooted, good := ?_ }
  rintro g blob (hlive | hrest)
  · rcases hgood g blob hlive with h | h
    · exact inv.good g blob (.inl h)
    · exact h
  · exact inv.good g blob (.inr hrest)

variable {c : γ}

omit inv in
lemma GoodImage.allocate (h : GoodImage path allocated T base g blob) (hc : c ∉ allocated)
    (p : List Byte) : GoodImage (update path c p) (c :: allocated) T base g blob := by
  have hgc : g ≠ c := fun heq => hc (heq ▸ h.known)
  have hpath : update path c p g = path g := update_of_ne hgc _ _
  refine ⟨h.shaped.congr hpath ?_, mem_cons_of_mem _ h.known,
    fun q d hq => mem_cons_of_mem _ (h.named q d hq), ?_⟩
  · intro q d hq
    refine update_of_ne (fun heq => hc ?_) _ _
    exact heq ▸ h.named q d hq
  · rw [hpath]
    exact h.agrees

variable {p : List Byte}

omit [DecidableEq γ] inv in
/-- An edge that covers a word below `p` is below `p` itself, if none ends above it. -/
lemma child?_below {k : List Byte} (hp : ∀ e ∈ blob.edges, ¬ e.1 <+: p) (hpk : p <+: k)
    (h : (blob.below p).child? k = none) : blob.child? k = none := by
  rw [child?_eq_none] at h ⊢
  intro e he hek
  rcases prefix_or_prefix_of_prefix hek hpk with h' | h'
  · exact hp e he h'
  · exact h e (mem_below_edges.mpr ⟨he, h'⟩) hek

omit [DecidableEq γ] inv in
lemma child?_spill {k : List Byte} (h : (blob.spill p c).child? k = none) :
    ¬ p <+: k ∧ blob.child? k = none := by
  rw [child?_eq_none] at h ⊢
  have hpk : ¬ p <+: k := h (p, c) (mem_spill_edges.mpr (.inl rfl))
  refine ⟨hpk, fun e he hek => ?_⟩
  exact h e (mem_spill_edges.mpr (.inr ⟨he, fun hpe => hpk (hpe.trans hek)⟩)) hek

omit [DecidableEq γ] in
lemma Images.spillable (hg : s.live g = some blob) (hc : c ∉ s.allocated) (hbelow : s.path g <+: p)
    (hdeeper : (s.path g).length < p.length) (hun : ∀ e ∈ blob.edges, ¬ e.1 <+: p) :
    Spillable s.path s.live g blob p c := by
  have hfree : s.live c = none := by
    by_contra hne
    obtain ⟨b, hb⟩ := Option.ne_none_iff_exists'.mp hne
    exact hc (inv.good c b (.inl hb)).known
  exact ⟨hg, hfree, fun h b hb q hq => hc ((inv.good h b (.inl hb)).named q c hq), hbelow,
    hdeeper, hun⟩

lemma Images.spill (hspill : Spillable s.path s.live g blob p c) (hc : c ∉ s.allocated) :
    Images root base T { s with
      live := PrefixForest.spill s.live g blob p c
      path := update s.path c p
      allocated := c :: s.allocated } := by
  have hspill' := hspill
  obtain ⟨hg, -, -, hbelow, hdeeper, hun⟩ := hspill
  have hgood := (inv.good g blob (.inl hg)).allocate hc p
  have hgc : g ≠ c := fun heq => hc (heq ▸ (inv.good g blob (.inl hg)).known)
  have hpathg : update s.path c p g = s.path g := update_of_ne hgc _ _
  have hpathc : update s.path c p c = p := update_self _ _ _
  refine { inv with rooted := inv.rooted.spill hspill', good := ?_ }
  rintro h b (hlive | hrest)
  · rcases Table.update_cases hlive with ⟨rfl, rfl⟩ | ⟨-, hlive⟩
    · -- the blob with the edge
      refine ⟨hgood.shaped.spill hpathc (hpathg ▸ hbelow) (hpathg ▸ hdeeper) hun, hgood.known, ?_,
        ?_⟩
      · intro q d hq
        rcases mem_spill_edges.mp hq with heq | ⟨hmem, -⟩
        · cases heq
          exact mem_cons_self
        · exact hgood.named q d hmem
      · intro key hkey hk hnone
        obtain ⟨hpk, hnone'⟩ := child?_spill hnone
        rw [spill_records hpk]
        exact hgood.agrees key hkey hk hnone'
    · rcases Table.update_cases hlive with ⟨rfl, rfl⟩ | ⟨-, hlive⟩
      · -- the new blob
        refine ⟨hgood.shaped.below hpathc hun, mem_cons_self, ?_, ?_⟩
        · exact fun q d hq => hgood.named q d (mem_below_edges.mp hq).1
        · intro key hkey hk hnone
          simp only [hpathc] at hk
          rw [below_records hk]
          refine hgood.agrees key hkey ?_ (child?_below hun hk hnone)
          rw [hpathg]
          exact hbelow.trans hk
      · exact (inv.good h b (.inl hlive)).allocate hc p
  · exact (inv.good h b (.inr hrest)).allocate hc p

lemma Images.merge {child : Blob γ} (hg : s.live g = some blob) (hc : s.live c = some child)
    (hedge : (p, c) ∈ blob.edges) :
    Images root base T { s with live := PrefixForest.absorb s.live g blob p child } := by
  have hgood := inv.good g blob (.inl hg)
  have hchild := inv.good c child (.inl hc)
  have hpath : s.path c = p := hgood.shaped.child p c hedge
  refine inv.setLive (inv.rooted.absorb hg hc hedge) (fun h b hlive => ?_)
  rcases Table.update_cases hlive with ⟨rfl, rfl⟩ | ⟨-, hlive⟩
  · refine .inr ⟨hgood.shaped.absorb hedge hchild.shaped, hgood.known, ?_, ?_⟩
    · intro q d hq
      rcases mem_absorb_edges.mp hq with ⟨hmem, -⟩ | hmem
      · exact hgood.named q d hmem
      · exact hchild.named q d hmem
    · intro key hkey hk hnone
      rw [child?_eq_none] at hnone
      by_cases hpk : p <+: searchKey key
      · -- under the folded path the child owned the key
        rw [absorb_records_below hpk]
        refine hchild.agrees key hkey (hpath ▸ hpk) (child?_eq_none.mpr fun e he => ?_)
        exact hnone e (mem_absorb_edges.mpr (.inr he))
      · rw [absorb_records_outside hpk]
        refine hgood.agrees key hkey hk (child?_eq_none.mpr fun e he hek => ?_)
        refine hnone e (mem_absorb_edges.mpr (.inl ⟨he, fun hep => hpk ?_⟩)) hek
        exact hep ▸ hek
  · exact .inl hlive

/-! ## Rounds -/

omit [DecidableEq γ] in
/-- Captured images that are cached, captured or on disk already. -/
lemma Images.move (epochs : List (List (Captured γ))) (entries wave : List (Captured γ))
    (hepochs : ∀ epoch ∈ epochs, ∀ e ∈ epoch, s.Holds e.1 e.2)
    (hentries : ∀ e ∈ entries, s.Holds e.1 e.2) (hwave : ∀ e ∈ wave, s.Holds e.1 e.2)
    (hready : ∀ e ∈ wave, ∀ p c, (p, c) ∈ e.2.edges → s.Durable c) :
    Images root base T { s with epochs := epochs, entries := entries, wave := wave } := by
  refine { inv with good := ?_, ready := hready }
  rintro g blob (hlive | ⟨epoch, he, hmem⟩ | hmem | hmem | hdisk)
  · exact inv.good g blob (.inl hlive)
  · exact inv.good g blob (hepochs epoch he _ hmem)
  · exact inv.good g blob (hentries _ hmem)
  · exact inv.good g blob (hwave _ hmem)
  · exact inv.good g blob (.inr (.inr (.inr (.inr hdisk))))

/-- A wave is planned when everything written before has been flushed. -/
lemma Images.children_of_ready (hflushed : s.unflushed = []) (h : s.childrenReady blob = true)
    (hpc : (p, c) ∈ blob.edges) : s.Durable c := by
  have hc := List.all_eq_true.mp h (p, c) hpc
  simp only [Bool.or_eq_true, Bool.and_eq_true, decide_eq_true_eq, Bool.not_eq_true',
    isEmpty_eq_false_iff] at hc
  have hfresh : c ∉ s.fresh := fun hmem => by
    have := inv.fresh c hmem
    simp [hflushed] at this
  rcases hc with hc | ⟨⟨-, hc⟩, -⟩
  · exact ⟨inv.batch c hc, hfresh⟩
  · exact ⟨hc, hfresh⟩

lemma Images.writeBlob {rest : List (Captured γ)} (hwave : s.wave = (g, blob) :: rest) :
    Images root base T { s with
      wave := rest
      disk := update s.disk g (blob :: s.disk g)
      unflushed := g :: s.unflushed
      fresh := if s.disk g = [] then g :: s.fresh else s.fresh
      durableThisBatch := g :: s.durableThisBatch } := by
  have hmono : ∀ h, s.disk h ≠ [] → update s.disk g (blob :: s.disk g) h ≠ [] := by
    intro h hh
    rcases eq_or_ne h g with rfl | hne
    · simp
    · rwa [update_of_ne hne]
  have hfresh : ∀ h ∈ (if s.disk g = [] then g :: s.fresh else s.fresh),
      h ∈ s.fresh ∨ h = g ∧ s.disk g = [] := by
    intro h hh
    split_ifs at hh with hnil
    · rcases mem_cons.mp hh with rfl | hh
      · exact .inr ⟨rfl, hnil⟩
      · exact .inl hh
    · exact .inl hh
  have hkept : ∀ h, s.Durable h → update s.disk g (blob :: s.disk g) h ≠ [] ∧
      h ∉ (if s.disk g = [] then g :: s.fresh else s.fresh) := by
    rintro h ⟨hdisk, hold⟩
    refine ⟨hmono h hdisk, fun hmem => ?_⟩
    rcases hfresh h hmem with hmem | ⟨rfl, hnil⟩
    · exact hold hmem
    · exact hdisk hnil
  have hin : ∀ e ∈ rest, e ∈ s.wave := fun e he => hwave ▸ mem_cons_of_mem _ he
  have hhead : (g, blob) ∈ s.wave := hwave ▸ mem_cons_self
  have hdisk : ∀ h, ∀ b ∈ update s.disk g (blob :: s.disk g) h,
      b ∈ s.disk h ∨ (h = g ∧ b = blob) := by
    intro h b hb
    rcases eq_or_ne h g with rfl | hne
    · rw [update_self] at hb
      rcases mem_cons.mp hb with rfl | hb
      · exact .inr ⟨rfl, rfl⟩
      · exact .inl hb
    · rw [update_of_ne hne] at hb
      exact .inl hb
  refine ⟨inv.rooted, ?_, ?_, ?_, hkept root inv.rootDisk, ?_, ?_⟩
  · rintro h b (hlive | hep | hent | hwv | hdk)
    · exact inv.good h b (.inl hlive)
    · exact inv.good h b (.inr (.inl hep))
    · exact inv.good h b (.inr (.inr (.inl hent)))
    · exact inv.good h b (.inr (.inr (.inr (.inl (hin _ hwv)))))
    · rcases hdisk h b hdk with hb | ⟨rfl, rfl⟩
      · exact inv.good h b (.inr (.inr (.inr (.inr hb))))
      · exact inv.good h b (.inr (.inr (.inr (.inl hhead))))
  · intro h b hb p c hpc
    rcases hdisk h b hb with hb | ⟨rfl, rfl⟩
    · exact hkept c (inv.closed h b hb p c hpc)
    · exact hkept c (inv.ready _ hhead p c hpc)
  · exact fun e he p c hpc => hkept c (inv.ready e (hin e he) p c hpc)
  · intro h hh
    rcases mem_cons.mp hh with rfl | hh
    · simp
    · exact hmono h (inv.batch h hh)
  · intro h hh
    rcases hfresh h hh with hh | ⟨rfl, -⟩
    · exact mem_cons_of_mem _ (inv.fresh h hh)
    · exact mem_cons_self

omit [DecidableEq γ] in
lemma Images.flushInner : Images root base T
    { s with disk := fun g => (s.disk g).take 1, unflushed := [], fresh := [] } := by
  have hmono : ∀ h, s.disk h ≠ [] → (s.disk h).take 1 ≠ [] := by
    intro h hh
    simpa using hh
  have hdurable : ∀ h, s.Durable h → (s.disk h).take 1 ≠ [] ∧ h ∉ ([] : List γ) :=
    fun h hh => ⟨hmono h hh.1, not_mem_nil⟩
  refine ⟨inv.rooted, ?_, ?_, fun e he p c hpc => hdurable c (inv.ready e he p c hpc),
    hdurable root inv.rootDisk, fun g hg => hmono g (inv.batch g hg), fun g hg => hg⟩
  · rintro h b (hlive | hep | hent | hwv | hdk)
    · exact inv.good h b (.inl hlive)
    · exact inv.good h b (.inr (.inl hep))
    · exact inv.good h b (.inr (.inr (.inl hent)))
    · exact inv.good h b (.inr (.inr (.inr (.inl hwv))))
    · exact inv.good h b (.inr (.inr (.inr (.inr (mem_of_mem_take hdk)))))
  · exact fun h b hb p c hpc => hdurable c (inv.closed h b (mem_of_mem_take hb) p c hpc)

end Images

end Checkpoint
end Holt
