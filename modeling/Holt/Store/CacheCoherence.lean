import Holt.Store.BufferCache

/-!
# Coherence of the buffer cache

A cold pin reads the store and inserts what it read later, without a version token.
`stale_publish` is a run in which the insertion comes after another thread has loaded,
mutated, flushed and evicted the same blob: the cache then holds an image older than the
store's, and nothing marks it.

`cache_coherent` is the guarantee that remains: in every run whose insertions find their
blob resident or unwritten since the read (`NoWriteSinceRead`), the cache is coherent in
every state reached and every publication is of the store's current image.

The invariant `Inv` follows one dirty entry through its epoch.  While the entry holds its
flushing reference the frame stays resident, so a captured content version identifies the
captured bytes; the entries of one `write_through_batch` that pass the currency check for
one blob carry the same version, so after the store write the store holds those bytes until
`retire_write_through` re-checks the version.
-/

namespace Holt
namespace Store

open Function List Option Transition Table

/-! ## A stale publication -/

/-- A store with one blob, GUID `7`, whose image is `0`. -/
def oneBlob : ℕ → Option ℕ := fun guid => if guid = 7 then some 0 else none

/-- Thread 0 reads the blob; thread 1 loads it, writes image `1`, and a checkpoint writes
that image through; the frame is evicted, and thread 0 inserts what it read. -/
def straddlingLoad : List (Action ℕ ℕ) :=
  [.pinMiss 0 7, .readBlob 0, .pinMiss 1 7, .readBlob 1, .insertIfAbsent 1, .mutate 1 1,
    .markDirty 1 5, .unpin 1, .drainDirty 7, .readVersion 0, .cloneBytes 0, .beginBatch [0],
    .checkCurrent 0, .writeBlob 0, .retire 0, .endBatch, .evictCold 7, .insertIfAbsent 0]

/-- The cached image is older than the written one, and the blob is neither dirty nor
flushing nor being written. -/
theorem stale_publish :
    ∃ m, FreePath step (Manager.open oneBlob 2) straddlingLoad m ∧ ¬ Coherent m := by
  have hrun : ∃ m, exec step (Manager.open oneBlob 2) straddlingLoad = some m ∧
      ¬ Coherent m := by
    refine ⟨_, rfl, fun h => ?_⟩
    have hbad := h 7 ⟨0, 0⟩ (by decide) (by decide)
    revert hbad
    decide
  obtain ⟨m, hexec, hbad⟩ := hrun
  exact ⟨m, freePath_of_exec hexec, hbad⟩

/-! ## The invariant -/

section Invariant

variable {γ β : Type*} [DecidableEq γ] {X : γ → Prop}

/-- The content version an unfinished entry has captured. -/
def EntryPhase.version? : EntryPhase β → Option ℕ
  | .versioned v | .cloned v _ | .checked v _ | .stored v _ => some v
  | _ => none

/-- The captured version and bytes of an entry that has cloned its frame. -/
def EntryPhase.clone? : EntryPhase β → Option (ℕ × β)
  | .cloned v b | .checked v b | .stored v b => some (v, b)
  | _ => none

/-- The entry is past `snapshot_bytes_if_version`. -/
def EntryPhase.captured : EntryPhase β → Bool
  | .drained | .versioned _ => false
  | _ => true

variable {v : ℕ} {b : β}

lemma EntryPhase.version?_of_clone? {phase : EntryPhase β} (h : phase.clone? = some (v, b)) :
    phase.version? = some v := by
  cases phase <;> simp_all [EntryPhase.clone?, EntryPhase.version?]

/-- What every state of a run with current insertions satisfies.  The blobs of `X`, nobody
reads any more, may differ from the store unmarked. -/
structure Inv (X : γ → Prop) (m : Manager γ β) : Prop where
  pinned : ∀ x ∈ m.threads, ∀ guid, x.pins guid = true → m.cache guid ≠ none
  flushing : ∀ guid, m.flushing guid = m.entries.countP (Entry.holds guid)
  held : ∀ e ∈ m.entries, ∀ guid, e.holds guid = true → m.cache guid ≠ none
  dirtyCached : ∀ guid, m.dirty guid ≠ none → m.cache guid ≠ none
  version : ∀ e ∈ m.entries, ∀ v c, e.phase.version? = some v → m.cache e.guid = some c →
    v ≤ c.version
  image : ∀ e ∈ m.entries, ∀ v b c, e.phase.clone? = some (v, b) → m.cache e.guid = some c →
    c.version = v → c.image = b
  agree : ∀ e ∈ m.entries, ∀ f ∈ m.entries, ∀ v b d, e.guid = f.guid →
    e.phase.clone? = some (v, b) → f.phase.clone? = some (v, d) → b = d
  active : ∀ (i : ℕ) (e : Entry γ β), m.entries[i]? = some e → e.phase.active = true →
    i ∈ m.checkpointIo.getD []
  batched : ∀ i ∈ m.checkpointIo.getD [], ∃ e, m.entries[i]? = some e ∧ e.phase.captured = true
  order : ∀ (i j : ℕ) (e f : Entry γ β) (v w : ℕ) (b d : β), m.entries[i]? = some e →
    m.entries[j]? = some f → i ∈ m.checkpointIo.getD [] → f.phase.active = true →
    e.guid = f.guid → e.phase.clone? = some (v, b) → f.phase.clone? = some (w, d) → v ≤ w
  stored : ∀ e ∈ m.entries, ∀ v b, e.phase = .stored v b → m.store e.guid = some b
  loaded : ∀ guid image stamp, Thread.loaded guid image stamp ∈ m.threads →
    stamp = m.writes guid → m.store guid = some image
  stamped : ∀ guid image stamp, Thread.loaded guid image stamp ∈ m.threads →
    stamp ≤ m.writes guid
  coherent : ∀ guid c, ¬ X guid → m.cache guid = some c → m.store guid ≠ some c.image →
    m.dirty guid ≠ none ∨ 0 < m.flushing guid ∨ ∃ x ∈ m.threads, x.unmarked guid = true

lemma inv_open (store : γ → Option β) (n : ℕ) : Inv X (Manager.open store n) := by
  have hidle : ∀ x ∈ (Manager.open store n).threads, x = .idle := by
    intro x hx
    exact (mem_replicate.mp hx).2
  constructor
  case pinned =>
    intro x hx guid hp
    rw [hidle x hx] at hp
    simp [Thread.pins] at hp
  case loaded | stamped =>
    intro guid image stamp hx
    exact absurd (hidle _ hx) nofun
  all_goals simp [Manager.open]

lemma inv_resident (store : γ → Option β) (n : ℕ) : Inv X { Manager.open store n with
    cache := fun guid => (store guid).map (fun image => ⟨image, 0⟩) } := by
  have hopen : Inv X (Manager.open store n) := inv_open store n
  have hidle : ∀ x ∈ (Manager.open store n).threads, ∀ guid, x.pins guid = false := by
    intro x hx guid
    rw [(mem_replicate.mp hx).2]
    rfl
  refine { hopen with
    pinned := fun x hx guid hp => absurd hp (by simp [hidle x hx guid])
    held := by simp [Manager.open]
    dirtyCached := by simp [Manager.open]
    version := by simp [Manager.open]
    image := by simp [Manager.open]
    coherent := fun guid c _ hc hne => ?_ }
  obtain ⟨image, hs, rfl⟩ := map_eq_some_iff.mp hc
  exact absurd hs hne

variable {m : Manager γ β}

/-! ## Moves of threads -/

/-- A thread that moves must hold its new pin rightly, know its new stamp, and must not
leave a mutation unmarked behind. -/
lemma Inv.setThread (inv : Inv X m) {t : ℕ} {y x : Thread γ β} (hy : m.threads[t]? = some y)
    (hpin : ∀ guid, x.pins guid = true → m.cache guid ≠ none)
    (hload : ∀ guid image stamp, x = .loaded guid image stamp →
      stamp = m.writes guid ∧ m.store guid = some image)
    (hmark : ∀ guid, y.unmarked guid = true →
      x.unmarked guid = true ∨ m.dirty guid ≠ none ∨ 0 < m.flushing guid) :
    Inv X (m.setThread t x) := by
  have hmem : ∀ z ∈ (m.setThread t x).threads, z ∈ m.threads ∨ z = x :=
    fun z hz => mem_or_eq_of_mem_set hz
  refine { inv with
    pinned := forall_mem_set inv.pinned hpin
    loaded := ?loaded, stamped := ?stamped, coherent := ?coherent }
  case loaded =>
    intro guid image stamp hz hs
    rcases hmem _ hz with h | h
    · exact inv.loaded guid image stamp h hs
    · exact (hload guid image stamp h.symm).2
  case stamped =>
    intro guid image stamp hz
    rcases hmem _ hz with h | h
    · exact inv.stamped guid image stamp h
    · exact (hload guid image stamp h.symm).1.le
  case coherent =>
    intro guid c hX hc hne
    rcases inv.coherent guid c hX hc hne with h | h | ⟨z, hz, hun⟩
    · exact .inl h
    · exact .inr (.inl h)
    · rcases mem_set_or_eq (y := x) hy hz with hz | rfl
      · exact .inr (.inr ⟨z, hz, hun⟩)
      · rcases hmark guid hun with hx | hd | hf
        · have htlt : t < m.threads.length := (List.getElem?_eq_some_iff.mp hy).1
          exact .inr (.inr ⟨x, mem_set htlt x, hx⟩)
        · exact .inl hd
        · exact .inr (.inl hf)

variable {guid : γ} {e : Entry γ β}

/-- No unfinished entry is about a blob that is not resident. -/
lemma Inv.version?_of_not_resident (inv : Inv X m) (hnone : m.cache guid = none)
    (he : e ∈ m.entries) (hv : e.phase.version? ≠ none) : e.guid ≠ guid := by
  intro hg
  refine inv.held e he guid ?_ hnone
  rw [Entry.holds, hg]
  cases hp : e.phase <;> simp_all [EntryPhase.version?]

lemma Inv.clone?_of_not_resident (inv : Inv X m) (hnone : m.cache guid = none) (he : e ∈ m.entries)
    (hv : e.phase.clone? = some (v, b)) : e.guid ≠ guid :=
  inv.version?_of_not_resident hnone he (by simp [EntryPhase.version?_of_clone? hv])

variable {g : γ}

lemma ne_none_of_update {δ : Type*} {f : γ → Option δ} (h : update f guid none g ≠ none) :
    f g ≠ none := by
  rcases eq_or_ne g guid with rfl | hg
  · simp at h
  · rwa [update_of_ne hg] at h

variable {c : CachedBlob β} {dirty : γ → Option ℕ}

/-- A frame that becomes resident or changes keeps resident what is held. -/
lemma Inv.setCache (inv : Inv X m) (hdirty : ∀ g, g ≠ guid → dirty g = m.dirty g)
    (hversion : ∀ e ∈ m.entries, ∀ v, e.phase.version? = some v → e.guid = guid → v ≤ c.version)
    (himage : ∀ e ∈ m.entries, ∀ v b, e.phase.clone? = some (v, b) → e.guid = guid →
      c.version = v → c.image = b)
    (hcoherent : m.store guid ≠ some c.image → dirty guid ≠ none ∨ 0 < m.flushing guid ∨
      ∃ x ∈ m.threads, x.unmarked guid = true) :
    Inv X { m with cache := update m.cache guid (some c), dirty := dirty } := by
  refine { inv with
    pinned := fun x hx g hp => update_ne_none guid c (inv.pinned x hx g hp)
    held := fun e he g hh => update_ne_none guid c (inv.held e he g hh)
    dirtyCached := ?dirtyCached, version := ?version, image := ?image, coherent := ?coherent }
  case dirtyCached =>
    intro g hd
    rcases eq_or_ne g guid with rfl | h
    · simp
    · exact update_ne_none guid c (inv.dirtyCached g (hdirty g h ▸ hd))
  case version =>
    intro e he v d hv hd
    rcases update_cases hd with ⟨hg, rfl⟩ | ⟨-, hd⟩
    · exact hversion e he v hv hg
    · exact inv.version e he v d hv hd
  case image =>
    intro e he v b d hv hd heq
    rcases update_cases hd with ⟨hg, rfl⟩ | ⟨-, hd⟩
    · exact himage e he v b hv hg heq
    · exact inv.image e he v b d hv hd heq
  case coherent =>
    intro g d hX hd hne
    rcases update_cases hd with ⟨rfl, rfl⟩ | ⟨h, hd⟩
    · exact hcoherent hne
    · rcases inv.coherent g d hX hd hne with hg | hg
      · exact .inl (by simpa only [hdirty g h] using hg)
      · exact .inr hg

/-- A new frame that is the store's, or dirty, may become resident. -/
lemma Inv.insertWith (inv : Inv X m) {image : β} (hnone : m.cache guid = none)
    (hdirty : ∀ g, g ≠ guid → dirty g = m.dirty g)
    (hnew : m.store guid = some image ∨ dirty guid ≠ none) : Inv X { m with
      cache := update m.cache guid (some ⟨image, 0⟩)
      dirty := dirty } := by
  refine inv.setCache hdirty (fun e he v hv hg => ?_) (fun e he v b hv hg => ?_)
    fun hne => .inl (hnew.resolve_left hne)
  · exact absurd hg (inv.version?_of_not_resident hnone he (by simp [hv]))
  · exact absurd hg (inv.clone?_of_not_resident hnone he hv)

/-- Inserting the store's image of a blob that is not resident. -/
lemma Inv.insert (inv : Inv X m) {image : β} (hnone : m.cache guid = none)
    (hstore : m.store guid = some image) :
    Inv X { m with cache := update m.cache guid (some ⟨image, 0⟩) } :=
  inv.insertWith hnone (fun _ _ => rfl) (.inl hstore)

lemma Inv.mono (inv : Inv X m) {Y : γ → Prop} (h : ∀ g c, m.cache g = some c → X g → Y g) :
    Inv Y m :=
  { inv with coherent := fun g c hY hc => inv.coherent g c (fun hX => hY (h g c hc hX)) hc }

/-- A mutation bumps the version and is covered by its unmarked thread. -/
lemma Inv.mutate (inv : Inv X m) (image : β) (hc : m.cache guid = some c)
    (hun : ∃ x ∈ m.threads, x.unmarked guid = true) :
    Inv X { m with cache := update m.cache guid (some ⟨image, c.version + 1⟩) } := by
  have hle : ∀ e ∈ m.entries, ∀ v, e.phase.version? = some v → e.guid = guid → v ≤ c.version :=
    fun e he v hv hg => inv.version e he v c hv (hg ▸ hc)
  refine inv.setCache (fun _ _ => rfl)
    (fun e he v hv hg => (hle e he v hv hg).trans (Nat.le_succ _))
    (fun e he v b hv hg heq => ?_) fun _ => .inr (.inr hun)
  -- the captured version is now behind, so the bytes are not identified any more
  have hbehind := hle e he v (EntryPhase.version?_of_clone? hv) hg
  simp only at heq
  omega

variable {seq : ℕ}

lemma mergeSeq_ne_none (h : dirty g ≠ none) :
    mergeSeq dirty guid seq g ≠ none := update_ne_none guid _ h

lemma mergeSeq_cached {cache : γ → Option (CachedBlob β)}
    (hcached : ∀ g, dirty g ≠ none → cache g ≠ none) (hguid : cache guid ≠ none) (g : γ)
    (h : mergeSeq dirty guid seq g ≠ none) : cache g ≠ none := by
  rcases eq_or_ne g guid with rfl | hg
  · exact hguid
  · exact hcached g (by simpa [mergeSeq, update_of_ne hg] using h)

lemma Inv.moreDirty (inv : Inv X m) (hdirty : ∀ g, m.dirty g ≠ none → dirty g ≠ none)
    (hcached : ∀ g, dirty g ≠ none → m.cache g ≠ none) : Inv X { m with dirty := dirty } :=
  { inv with
    dirtyCached := hcached
    coherent := fun g c hX hc hne => (inv.coherent g c hX hc hne).imp_left (hdirty g) }

lemma Inv.evict (inv : Inv X m) (hprot : m.isProtected guid = false)
    (hpins : m.threads.all (fun x => !x.pins guid) = true) :
    Inv X { m with cache := update m.cache guid none } := by
  simp only [Manager.isProtected, Bool.or_eq_false_iff, decide_eq_false_iff_not,
    isSome_eq_false_iff, isNone_iff_eq_none] at hprot
  obtain ⟨hclean, hflush⟩ := hprot
  have hcache : ∀ g c, update m.cache guid none g = some c → m.cache g = some c := by
    intro g c hc
    rcases eq_or_ne g guid with rfl | h
    · simp at hc
    · rwa [update_of_ne h] at hc
  refine { inv with
    pinned := fun x hx g hp => ?pinned
    held := fun e he g hh => ?held
    dirtyCached := fun g hd => ?dirtyCached
    version := fun e he v c hv hc => inv.version e he v c hv (hcache _ c hc)
    image := fun e he v b c hv hc => inv.image e he v b c hv (hcache _ c hc)
    coherent := fun g c hX hc hne => inv.coherent g c hX (hcache g c hc) hne }
  case pinned =>
    have hne : g ≠ guid := by
      rintro rfl
      simpa [hp] using List.all_eq_true.mp hpins x hx
    simpa [update_of_ne hne] using inv.pinned x hx g hp
  case held =>
    have hne : g ≠ guid := by
      rintro rfl
      have hpos := countP_pos_iff.mpr ⟨e, he, hh⟩
      rw [← inv.flushing g] at hpos
      omega
    simpa [update_of_ne hne] using inv.held e he g hh
  case dirtyCached =>
    have hne : g ≠ guid := by
      rintro rfl
      exact hd hclean
    simpa [update_of_ne hne] using inv.dirtyCached g hd

/-- A change of the stored image of one blob that no loaded image is as new as. -/
lemma Inv.setStore (inv : Inv X m) {image : Option β}
    (hstored : ∀ e ∈ m.entries, ∀ v b, e.phase = .stored v b → e.guid = guid → image = some b)
    (hcoherent : ∀ c, m.cache guid = some c → 0 < m.flushing guid) : Inv X { m with
      store := update m.store guid image
      writes := update m.writes guid (m.writes guid + 1) } := by
  refine { inv with
    stored := fun e he v b hp => ?stored
    loaded := fun g im stamp hl hs => ?loaded
    stamped := fun g im stamp hl => ?stamped
    coherent := fun g c hX hc hne => ?coherent }
  case stored =>
    rcases eq_or_ne e.guid guid with hg | hg
    · simp [hg, hstored e he v b hp hg]
    · simpa [update_of_ne hg] using inv.stored e he v b hp
  case loaded =>
    rcases eq_or_ne g guid with rfl | hg
    · -- a stamp from before this write is behind the counter
      have hle := inv.stamped g im stamp hl
      simp only [update_self] at hs
      omega
    · simp only [update_of_ne hg] at hs ⊢
      exact inv.loaded g im stamp hl hs
  case stamped =>
    have hle := inv.stamped g im stamp hl
    rcases eq_or_ne g guid with rfl | hg
    · simp only [update_self]
      omega
    · simpa [update_of_ne hg] using hle
  case coherent =>
    rcases eq_or_ne g guid with rfl | hg
    · exact .inr (.inl (hcoherent c hc))
    · simp only [update_of_ne hg] at hne
      exact inv.coherent g c hX hc hne

/-- Deleting a blob that is neither resident nor on its way to the store. -/
lemma Inv.delete (inv : Inv X m) (hnone : m.cache guid = none) : Inv X { m with
      store := update m.store guid none
      writes := update m.writes guid (m.writes guid + 1) } := by
  refine inv.setStore (fun e he v b hp hg => ?_) fun c hc => by simp [hnone] at hc
  exact absurd hg (inv.version?_of_not_resident hnone he (by simp [hp, EntryPhase.version?]))

/-! ## Moves of checkpoint entries -/

lemma Inv.drain (inv : Inv X m) (hd : m.dirty guid = some seq) : Inv X { m with
      dirty := update m.dirty guid none
      flushing := update m.flushing guid (m.flushing guid + 1)
      entries := m.entries ++ [⟨guid, seq, .drained⟩] } := by
  refine { inv with
    flushing := fun g => ?flushing
    held := forall_mem_concat inv.held fun g hh => ?held
    dirtyCached := fun g hg => inv.dirtyCached g (ne_none_of_update hg)
    version := forall_mem_concat inv.version nofun
    image := forall_mem_concat inv.image nofun
    agree := forall_mem_concat (fun e he => forall_mem_concat (inv.agree e he)
      nofun) nofun
    active := fun i e hi hact => ?active
    batched := fun i hi => ?batched
    order := fun i j e f v w b d hi hj hio hact hguid hv hw => ?order
    stored := forall_mem_concat inv.stored nofun
    coherent := fun g c hX hc hne => ?coherent }
  case flushing =>
    simp only [countP_append, countP_singleton]
    rcases eq_or_ne g guid with rfl | h
    · simp [Entry.holds, inv.flushing g]
    · simp [Entry.holds, update_of_ne h, inv.flushing g, Ne.symm h]
  case held =>
    obtain rfl : guid = g := by simpa [Entry.holds] using hh
    exact inv.dirtyCached guid (by simp [hd])
  case active =>
    rcases getElem?_append_cases hi with h | ⟨-, rfl⟩
    · exact inv.active i e h hact
    · simp [EntryPhase.active] at hact
  case batched =>
    obtain ⟨e, he, hcap⟩ := inv.batched i hi
    exact ⟨e, by rw [getElem?_append_left (List.getElem?_eq_some_iff.mp he).1, he], hcap⟩
  case order =>
    rcases getElem?_append_cases hi with h | ⟨-, rfl⟩
    · rcases getElem?_append_cases hj with h' | ⟨-, rfl⟩
      · exact inv.order i j e f v w b d h h' hio hact hguid hv hw
      · simp [EntryPhase.active] at hact
    · simp [EntryPhase.clone?] at hv
  case coherent =>
    rcases eq_or_ne g guid with rfl | h
    · exact .inr (.inl (by simp))
    · simpa [update_of_ne h] using inv.coherent g c hX hc hne

/-- An entry that moves on must know the version and the bytes it now carries, and its place in
the running batch. -/
structure Moves (m : Manager γ β) (i : ℕ) (x : Entry γ β) (phase : EntryPhase β) : Prop where
  version : ∀ v c, phase.version? = some v → m.cache x.guid = some c → v ≤ c.version
  image : ∀ v b c, phase.clone? = some (v, b) → m.cache x.guid = some c → c.version = v →
    c.image = b
  agree : ∀ f ∈ m.entries, ∀ v b d, x.guid = f.guid → phase.clone? = some (v, b) →
    f.phase.clone? = some (v, d) → b = d
  active : phase.active = true → i ∈ m.checkpointIo.getD []
  captured : x.phase.captured = true → phase.captured = true
  order : ∀ v b, phase.clone? = some (v, b) → x.phase.captured = true →
    x.phase.clone? = some (v, b)
  current : ∀ v b, phase.clone? = some (v, b) → phase.active = true →
    x.phase.active = true ∨ ∃ c, m.cache x.guid = some c ∧ c.version = v
  stored : ∀ v b, phase = .stored v b → m.store x.guid = some b

section Moves

variable {i : ℕ} {x : Entry γ β} {phase : EntryPhase β}

lemma Inv.moveEntry (inv : Inv X m) (hx : m.entries[i]? = some x) (hmove : Moves m i x phase)
    {flushing : γ → ℕ} (hlive : x.holds x.guid = true)
    (hflushing : ∀ g, flushing g = (m.setEntry i x phase).entries.countP (Entry.holds g))
    (hcoherent : ∀ c, m.cache x.guid = some c → m.store x.guid ≠ some c.image →
      m.dirty x.guid ≠ none ∨ 0 < flushing x.guid) :
    Inv X { m.setEntry i x phase with flushing := flushing } := by
  have hxmem : x ∈ m.entries := mem_of_getElem? hx
  -- an entry of the running batch has captured its clone
  have hbatch : i ∈ m.checkpointIo.getD [] → x.phase.captured = true := by
    intro hi
    obtain ⟨e, he, hcap⟩ := inv.batched i hi
    cases hx.symm.trans he
    exact hcap
  refine { inv with
    flushing := hflushing
    held := forall_mem_set inv.held fun g hh => ?held
    version := forall_mem_set inv.version hmove.version
    image := forall_mem_set inv.image hmove.image
    agree := forall_mem_set (fun e he => forall_mem_set (inv.agree e he) fun v b d hguid hv hw =>
        (hmove.agree e he v d b hguid.symm hw hv).symm)
      (forall_mem_set hmove.agree fun v b d _ hv hw => ?agree)
    active := fun k e hk hact => ?active
    batched := fun k hk => ?batched
    order := fun k j e f v w b d hk hj hio hact hguid hv hw => ?order
    stored := forall_mem_set inv.stored hmove.stored
    coherent := fun g c hX hc hne => ?coherent }
  case held =>
    obtain rfl : x.guid = g := by
      simp only [Entry.holds, Bool.and_eq_true, beq_iff_eq] at hh
      exact hh.1
    exact inv.held x hxmem x.guid hlive
  case agree =>
    rw [hv, Option.some.injEq, Prod.mk.injEq] at hw
    exact hw.2
  case active =>
    rcases getElem?_set_cases hk with ⟨rfl, rfl⟩ | ⟨-, hk⟩
    · exact hmove.active hact
    · exact inv.active k e hk hact
  case batched =>
    have hilt : i < m.entries.length := (List.getElem?_eq_some_iff.mp hx).1
    rcases eq_or_ne i k with rfl | hik
    · exact ⟨_, getElem?_set_self hilt, hmove.captured (hbatch hk)⟩
    · obtain ⟨e, he, hcap⟩ := inv.batched k hk
      exact ⟨e, (getElem?_set_ne hik).trans he, hcap⟩
  case order =>
    -- the moved entry's clone is its old clone; if it became active, its version is current
    obtain ⟨e', he', heg, hec⟩ : ∃ e', m.entries[k]? = some e' ∧ e'.guid = e.guid ∧
        e'.phase.clone? = some (v, b) := by
      rcases getElem?_set_cases hk with ⟨rfl, rfl⟩ | ⟨-, hk⟩
      · exact ⟨x, hx, rfl, hmove.order v b hv (hbatch hio)⟩
      · exact ⟨e, hk, rfl, hv⟩
    rcases getElem?_set_cases hj with ⟨rfl, rfl⟩ | ⟨-, hj'⟩
    · rcases hmove.current w d hw hact with hxa | ⟨c, hc, hcw⟩
      · exact inv.order k j e' x v w b d he' hx hio hxa (heg.trans hguid) hec
          (hmove.order w d hw (hbatch (hmove.active hact)))
      · rw [← hcw]
        exact inv.version e' (mem_of_getElem? he') v c (EntryPhase.version?_of_clone? hec)
          (by rw [heg, hguid]; exact hc)
    · exact inv.order k j e' f v w b d he' hj' hio hact (heg.trans hguid) hec hw
  case coherent =>
    rcases eq_or_ne g x.guid with rfl | hg
    · exact (hcoherent c hc hne).imp_right .inl
    · have hsame : flushing g = m.flushing g := by
        rw [hflushing, inv.flushing g]
        exact countP_set_of_eq hx (by simp only [Entry.holds, beq_eq_false_iff_ne.mpr hg.symm,
          Bool.false_and])
      rcases inv.coherent g c hX hc hne with h | h | h
      · exact .inl h
      · exact .inr (.inl (h.trans_eq hsame.symm))
      · exact .inr (.inr h)

/-- An entry that moves on and keeps its flushing reference. -/
lemma Inv.setEntry (inv : Inv X m) (hx : m.entries[i]? = some x) (hlive : x.holds x.guid = true)
    (hlive' : ({ x with phase := phase } : Entry γ β).holds x.guid = true)
    (hmove : Moves m i x phase) : Inv X (m.setEntry i x phase) := by
  have hpos : 0 < m.flushing x.guid := by
    rw [inv.flushing]
    exact countP_pos_of_getElem? hx hlive
  refine inv.moveEntry hx hmove hlive (fun g => ?_) fun _ _ _ => .inr hpos
  refine (inv.flushing g).trans (countP_set_of_eq hx ?_).symm
  rcases eq_or_ne x.guid g with rfl | h
  · rw [hlive, hlive']
  · simp only [Entry.holds, beq_eq_false_iff_ne.mpr h, Bool.false_and]

/-- An entry that gives up its flushing reference leaves behind a dirty frame or one whose
cached image is the store's. -/
lemma Inv.finish (inv : Inv X m) (hx : m.entries[i]? = some x) (hlive : x.holds x.guid = true)
    (hleft : m.dirty x.guid ≠ none ∨ ∀ c, m.cache x.guid = some c → m.store x.guid = some c.image) :
    Inv X { m.setEntry i x .retired with
      flushing := update m.flushing x.guid (m.flushing x.guid - 1) } := by
  have hmove : Moves m i x .retired := by
    constructor <;>
      simp [EntryPhase.version?, EntryPhase.clone?, EntryPhase.active, EntryPhase.captured]
  refine inv.moveEntry hx hmove hlive (fun g => ?_) fun c hc hne =>
    .inl (hleft.resolve_right fun hs => hne (hs c hc))
  rcases eq_or_ne g x.guid with rfl | hg
  · have hcount := countP_set_of_end hx hlive
      (show ({ x with phase := .retired } : Entry γ β).holds x.guid = false by simp [Entry.holds])
    have hold := inv.flushing x.guid
    simp only [update_self, Manager.setEntry]
    omega
  · have hcount := countP_set_of_eq (p := Entry.holds g) hx
      (y := { x with phase := .retired }) (by simp [Entry.holds, Ne.symm hg])
    simpa [update_of_ne hg, Manager.setEntry, hcount] using inv.flushing g

lemma Inv.abandon (inv : Inv X m) (hx : m.entries[i]? = some x) (hlive : x.holds x.guid = true) :
    Inv X (m.setEntry i x .stale) := by
  refine inv.setEntry hx hlive (by simp [Entry.holds]) ?_
  constructor <;>
    simp [EntryPhase.version?, EntryPhase.clone?, EntryPhase.active, EntryPhase.captured]

/-- An entry of the running batch that moves on with its clone. -/
lemma Inv.advance (inv : Inv X m) (hx : m.entries[i]? = some x) {v : ℕ} {b : β}
    (hclone : x.phase.clone? = some (v, b)) (hclone' : phase.clone? = some (v, b))
    (hio : i ∈ m.checkpointIo.getD [])
    (hcurrent : x.phase.active = true ∨ ∃ c, m.cache x.guid = some c ∧ c.version = v)
    (hstored : ∀ v b, phase = .stored v b → m.store x.guid = some b) :
    Inv X (m.setEntry i x phase) := by
  have hxmem : x ∈ m.entries := mem_of_getElem? hx
  have hkeep : ∀ w d, phase.clone? = some (w, d) → x.phase.clone? = some (w, d) := by
    intro w d h
    rw [hclone, ← hclone', h]
  refine inv.setEntry hx ?_ ?_
    { version := fun w c hw hc => ?_
      image := fun w d c h => inv.image x hxmem w d c (hkeep w d h)
      agree := fun f hf w d d' hg h => inv.agree x hxmem f hf w d d' hg (hkeep w d h)
      active := fun _ => hio
      captured := fun _ => ?_
      order := fun w d h _ => hkeep w d h
      current := fun w d h _ => ?_
      stored := hstored }
  · cases hp : x.phase <;> simp_all [Entry.holds, EntryPhase.clone?]
  · cases hp : phase <;> simp_all [Entry.holds, EntryPhase.clone?]
  · rw [EntryPhase.version?_of_clone? hclone', Option.some.injEq] at hw
    exact inv.version x hxmem w c (hw ▸ EntryPhase.version?_of_clone? hclone) hc
  · cases hp : phase <;> simp_all [EntryPhase.captured, EntryPhase.clone?]
  · rw [hclone', Option.some.injEq, Prod.mk.injEq] at h
    exact h.1 ▸ hcurrent

end Moves

variable {i : ℕ}

/-- `snapshot_dirty_versions` on a drained entry. -/
lemma Inv.readVersion (inv : Inv X m) (hx : m.entries[i]? = some ⟨guid, seq, .drained⟩)
    (hc : m.cache guid = some c) :
    Inv X (m.setEntry i ⟨guid, seq, .drained⟩ (.versioned c.version)) := by
  refine inv.setEntry hx (by simp [Entry.holds]) (by simp [Entry.holds]) ?_
  constructor <;>
    simp [EntryPhase.version?, EntryPhase.clone?, EntryPhase.active, EntryPhase.captured, hc]

/-- `snapshot_bytes_if_version` on an unmoved frame: every other clone of this version is
of the same bytes, the cached ones. -/
lemma Inv.cloneBytes (inv : Inv X m) {version : ℕ}
    (hx : m.entries[i]? = some ⟨guid, seq, .versioned version⟩) (hc : m.cache guid = some c)
    (hv : c.version = version) :
    Inv X (m.setEntry i ⟨guid, seq, .versioned version⟩ (.cloned version c.image)) := by
  refine inv.setEntry hx (by simp [Entry.holds]) (by simp [Entry.holds]) ?_
  constructor
  case version => simp [EntryPhase.version?, hc, hv]
  case image => simp [EntryPhase.clone?, hc]
  case agree =>
    intro f hf v b d hguid hb hd
    simp only [EntryPhase.clone?, Option.some.injEq, Prod.mk.injEq] at hb
    obtain ⟨rfl, rfl⟩ := hb
    exact inv.image f hf version d c hd (by rw [← hguid]; exact hc) hv
  all_goals simp [EntryPhase.active, EntryPhase.captured]

/-- Two entries of the running batch that passed the check for one blob carry one image. -/
lemma Inv.active_agree (inv : Inv X m) {j : ℕ} {f : Entry γ β} {w : ℕ} {d : β}
    (hi : m.entries[i]? = some e) (hj : m.entries[j]? = some f) (he : e.phase.active = true)
    (hf : f.phase.active = true) (hguid : e.guid = f.guid) (hv : e.phase.clone? = some (v, b))
    (hw : f.phase.clone? = some (w, d)) : b = d := by
  obtain rfl : v = w := le_antisymm
    (inv.order i j e f v w b d hi hj (inv.active i e hi he) hf hguid hv hw)
    (inv.order j i f e w v d b hj hi (inv.active j f hj hf) he hguid.symm hw hv)
  exact inv.agree e (mem_of_getElem? hi) f (mem_of_getElem? hj) v b d hguid hv hw

lemma Inv.store (inv : Inv X m) {version : ℕ} {bytes : β}
    (hx : m.entries[i]? = some ⟨guid, seq, .checked version bytes⟩) : Inv X { m with
      store := update m.store guid (some bytes)
      writes := update m.writes guid (m.writes guid + 1) } := by
  refine inv.setStore (fun f hf v d hp hg => ?_) fun c hc => ?_
  · obtain ⟨j, hj⟩ := mem_iff_getElem?.mp hf
    exact congrArg some (inv.active_agree hx hj rfl (by rw [hp]; rfl) hg.symm rfl (by rw [hp]; rfl))
  · rw [inv.flushing guid]
    exact countP_pos_of_getElem? hx (by simp [Entry.holds])

/-- A frame whose cached image is the store's, or that nobody reads, needs no dirty entry. -/
lemma Inv.lessDirty (inv : Inv X m)
    (hsame : X guid ∨ ∀ c, m.cache guid = some c → m.store guid = some c.image) :
    Inv X { m with dirty := update m.dirty guid none } := by
  refine { inv with
    dirtyCached := fun g hd => inv.dirtyCached g (ne_none_of_update hd)
    coherent := fun g c hX hc hne => ?_ }
  rcases eq_or_ne g guid with rfl | hg
  · exact (hne (hsame.resolve_left hX c hc)).elim
  · simpa [update_of_ne hg] using inv.coherent g c hX hc hne

/-- A batch starts with cloned entries, while no entry is past a check. -/
lemma Inv.beginBatch (inv : Inv X m) {es : List ℕ} (hfree : m.checkpointIo = none)
    (hes : es.all (fun e => match m.entries[e]? with
      | some ⟨_, _, .cloned _ _⟩ => true
      | _ => false) = true) : Inv X { m with checkpointIo := some es } := by
  have hnone : ∀ (i : ℕ) (e : Entry γ β), m.entries[i]? = some e → e.phase.active = true →
      False := by
    intro i e hi hact
    simpa [hfree] using inv.active i e hi hact
  refine { inv with
    active := fun i e hi hact => (hnone i e hi hact).elim
    batched := fun i hi => ?_
    order := fun i j e f v w b d _ hj _ hact => (hnone j f hj hact).elim }
  have hcloned := List.all_eq_true.mp hes i hi
  split at hcloned
  · exact ⟨_, by assumption, rfl⟩
  · exact absurd hcloned Bool.false_ne_true

/-- A batch ends when none of its entries is between its check and its retirement. -/
lemma Inv.endBatch (inv : Inv X m) (hes : (m.checkpointIo.getD []).all (fun e =>
      match m.entries[e]? with
      | some x => !x.phase.active
      | none => true) = true) : Inv X { m with checkpointIo := none } := by
  have hnone : ∀ (i : ℕ) (e : Entry γ β), m.entries[i]? = some e → e.phase.active = true →
      False := by
    intro i e hi hact
    simpa [hi, hact] using List.all_eq_true.mp hes i (inv.active i e hi hact)
  exact { inv with
    active := fun i e hi hact => (hnone i e hi hact).elim
    batched := fun i hi => absurd hi not_mem_nil
    order := fun i j e f v w b d _ hj _ hact => (hnone j f hj hact).elim }

/-! ## Runs -/

variable {m' : Manager γ β} {a : Action γ β}

lemma of_pins {P : γ → Prop} (h : P guid) (g : γ)
    (hg : (Thread.pinned guid : Thread γ β).pins g = true) : P g := by
  obtain rfl : guid = g := by simpa [Thread.pins] using hg
  exact h

lemma inv_threadStep (inv : Inv X m) (hguard : NoWriteSinceRead m a)
    (hstep : threadStep m a = some m') : Inv X m' := by
  cases a <;> simp only [threadStep, reduceCtorEq] at hstep
  case pinResident t guid =>
    split at hstep <;> try contradiction
    next hy hc =>
      cases hstep
      exact inv.setThread hy (of_pins (by simp [hc])) (by simp) (by simp [Thread.unmarked])
  case pinMiss t guid =>
    split at hstep <;> try contradiction
    next hy hc =>
      cases hstep
      exact inv.setThread hy (by simp [Thread.pins]) (by simp) (by simp [Thread.unmarked])
  case readBlob t =>
    split at hstep <;> try contradiction
    next guid hy =>
      obtain ⟨image, hstore, rfl⟩ := map_eq_some_iff.mp hstep
      refine inv.setThread hy (by simp [Thread.pins]) ?_ (by simp [Thread.unmarked])
      rintro g im stamp ⟨rfl, rfl, rfl⟩
      exact ⟨rfl, hstore⟩
  case insertIfAbsent t =>
    split at hstep <;> try contradiction
    next guid image stamp hy =>
      split at hstep
      next c hc =>
        cases hstep
        exact inv.setThread hy (of_pins (by simp [hc])) (by simp) (by simp [Thread.unmarked])
      next hc =>
        cases hstep
        -- an image as old as the last write is the store's
        have hstamp : stamp = m.writes guid := by simpa [NoWriteSinceRead, hy, hc] using hguard
        have hstore := inv.loaded guid image stamp (mem_of_getElem? hy) hstamp
        exact (inv.insert hc hstore).setThread hy (of_pins (by simp)) (by simp)
          (by simp [Thread.unmarked])
  case mutate t image =>
    split at hstep <;> try contradiction
    next guid hy =>
      obtain ⟨c, hc, rfl⟩ := map_eq_some_iff.mp hstep
      have hpin : ∀ g, (Thread.mutated guid : Thread γ β).pins g = true → m.cache g ≠ none :=
        of_pins (β := β) (by simp [hc])
      have hlt : t < m.threads.length := (List.getElem?_eq_some_iff.mp hy).1
      exact (inv.setThread hy hpin (by simp) (by simp [Thread.unmarked])).mutate image hc
        ⟨_, mem_set hlt _, by simp [Thread.unmarked]⟩
  case markDirty t seq =>
    split at hstep <;> try contradiction
    next guid hy =>
      have hcached : m.cache guid ≠ none :=
        inv.pinned _ (mem_of_getElem? hy) guid (by simp [Thread.pins])
      split at hstep
      · cases hstep
        refine Inv.setThread (inv.moreDirty (fun g => mergeSeq_ne_none)
          (mergeSeq_cached inv.dirtyCached hcached)) hy (of_pins hcached) (by simp) ?_
        intro g hg
        obtain rfl : guid = g := by simpa [Thread.unmarked] using hg
        exact .inr (.inl (by simp [mergeSeq]))
      · contradiction
  case unpin t =>
    split at hstep <;> try contradiction
    next guid hy =>
      cases hstep
      exact inv.setThread hy (by simp [Thread.pins]) (by simp) (by simp [Thread.unmarked])
  case evictCold guid =>
    split at hstep <;> try contradiction
    next h =>
      cases hstep
      exact inv.evict h.2.1 h.2.2

lemma inv_checkpointStep (inv : Inv X m) (hstep : checkpointStep m a = some m') : Inv X m' := by
  cases a <;> simp only [checkpointStep, reduceCtorEq] at hstep
  case drainDirty guid =>
    obtain ⟨seq, hd, rfl⟩ := map_eq_some_iff.mp hstep
    exact inv.drain hd
  case readVersion e =>
    split at hstep <;> try contradiction
    next guid seq hx =>
      obtain ⟨c, hc, rfl⟩ := map_eq_some_iff.mp hstep
      exact inv.readVersion hx hc
  case cloneBytes e =>
    split at hstep <;> try contradiction
    next guid seq version hx =>
      obtain ⟨c, hc, rfl⟩ := map_eq_some_iff.mp hstep
      split_ifs with hv
      · exact inv.cloneBytes hx hc hv
      · exact inv.abandon hx (by simp [Entry.holds])
  case beginBatch es =>
    split at hstep <;> try contradiction
    next h =>
      cases hstep
      exact inv.beginBatch h.1 h.2
  case checkCurrent e =>
    split at hstep <;> try contradiction
    next guid seq version bytes hx =>
      split at hstep <;> try contradiction
      next hio =>
        obtain ⟨c, hc, rfl⟩ := map_eq_some_iff.mp hstep
        split_ifs with hv
        · exact inv.advance hx rfl rfl (by simpa using hio) (.inr ⟨c, hc, hv⟩) nofun
        · exact inv.abandon hx (by simp [Entry.holds])
  case writeBlob e =>
    split at hstep <;> try contradiction
    next guid seq version bytes hx =>
      cases hstep
      refine (inv.store hx).advance hx rfl rfl (inv.active e _ hx rfl) (.inl rfl) ?_
      rintro v b ⟨rfl, rfl⟩
      simp
  case retire e =>
    split at hstep <;> try contradiction
    next guid seq version bytes hx =>
      obtain ⟨c, hc, rfl⟩ := map_eq_some_iff.mp hstep
      have hmem := mem_of_getElem? hx
      -- if the version has not moved since the clone, the store holds the cached image
      have hsame : c.version = version → ∀ d, m.cache guid = some d →
          m.store guid = some d.image := by
        intro hv d hd
        cases hc.symm.trans hd
        rw [inv.image _ hmem version bytes c rfl hc hv]
        exact inv.stored _ hmem version bytes rfl
      split_ifs with hv
      · exact (inv.lessDirty (.inr (hsame hv))).finish hx (by simp [Entry.holds]) (.inr (hsame hv))
      · exact inv.finish hx (by simp [Entry.holds]) (.inr (hsame hv))
      · exact inv.abandon hx (by simp [Entry.holds])
  case endBatch =>
    split at hstep <;> try contradiction
    next h =>
      cases hstep
      exact inv.endBatch h
  case restoreDirty e =>
    split at hstep <;> try contradiction
    next guid seq hx =>
      cases hstep
      have hcached := inv.held _ (mem_of_getElem? hx) guid (by simp [Entry.holds])
      exact Inv.finish (inv.moreDirty (fun g => mergeSeq_ne_none)
        (mergeSeq_cached inv.dirtyCached hcached)) hx (by simp [Entry.holds])
        (.inl (by simp [mergeSeq]))

lemma inv_step (inv : Inv X m) (hguard : NoWriteSinceRead m a) (hstep : step m a = some m') :
    Inv X m' := by
  rcases or_eq_some_iff.mp hstep with h | ⟨-, h⟩
  · exact inv_threadStep inv hguard h
  · exact inv_checkpointStep inv h

lemma threadStep_cache_of_none (hstep : threadStep m a = some m') (hnone : m.cache guid = none) :
    m'.cache guid = none ∨ ∃ t image stamp, a = .insertIfAbsent t ∧
      m.threads[t]? = some (.loaded guid image stamp) ∧ m'.cache guid = some ⟨image, 0⟩ ∧
      m'.store = m.store := by
  cases a <;> simp only [threadStep, reduceCtorEq] at hstep
  case insertIfAbsent t =>
    split at hstep <;> try contradiction
    next g image stamp hy =>
      split at hstep
      · cases hstep
        exact .inl hnone
      · cases hstep
        rcases eq_or_ne guid g with rfl | hg
        · exact .inr ⟨t, image, stamp, rfl, hy, by simp, rfl⟩
        · exact .inl (by simpa [update_of_ne hg] using hnone)
  case mutate t image =>
    split at hstep <;> try contradiction
    next g hy =>
      obtain ⟨c, hc, rfl⟩ := map_eq_some_iff.mp hstep
      have hg : guid ≠ g := by
        rintro rfl
        simp [hnone] at hc
      exact .inl (by simpa [update_of_ne hg] using hnone)
  case readBlob t =>
    split at hstep <;> try contradiction
    obtain ⟨c, hc, rfl⟩ := map_eq_some_iff.mp hstep
    exact .inl hnone
  case markDirty t seq =>
    split at hstep <;> try contradiction
    split at hstep <;> cases hstep <;> exact .inl hnone
  case evictCold g =>
    split at hstep <;> try contradiction
    cases hstep
    rcases eq_or_ne guid g with rfl | hg
    · exact .inl (by simp)
    · exact .inl (by simpa [update_of_ne hg] using hnone)
  case pinResident t g | pinMiss t g | unpin t =>
    split at hstep <;> try contradiction
    cases hstep
    exact .inl hnone

lemma checkpointStep_cache (hstep : checkpointStep m a = some m') : m'.cache = m.cache := by
  cases a <;> simp only [checkpointStep, reduceCtorEq] at hstep
  case drainDirty guid =>
    obtain ⟨seq, -, rfl⟩ := map_eq_some_iff.mp hstep
    rfl
  case readVersion e | cloneBytes e | retire e =>
    split at hstep <;> try contradiction
    obtain ⟨c, -, rfl⟩ := map_eq_some_iff.mp hstep
    first | rfl | (split_ifs <;> rfl)
  case checkCurrent e =>
    split at hstep <;> try contradiction
    split at hstep <;> try contradiction
    obtain ⟨c, -, rfl⟩ := map_eq_some_iff.mp hstep
    split_ifs <;> rfl
  case beginBatch es | endBatch | writeBlob e | restoreDirty e =>
    split at hstep <;> try contradiction
    cases hstep
    rfl

lemma publishesCurrent_step (inv : Inv X m) (hguard : NoWriteSinceRead m a)
    (hstep : step m a = some m') : PublishesCurrent m m' := by
  intro guid c hnone hc
  rcases or_eq_some_iff.mp hstep with h | ⟨-, h⟩
  · rcases threadStep_cache_of_none h hnone with hn | ⟨t, image, stamp, rfl, hy, hcache, hstore⟩
    · simp [hn] at hc
    · have hstamp : stamp = m.writes guid := by simpa [NoWriteSinceRead, hy, hnone] using hguard
      rw [hcache, Option.some.injEq] at hc
      rw [hstore, ← hc]
      exact inv.loaded guid image stamp (mem_of_getElem? hy) hstamp
  · rw [checkpointStep_cache h, hnone] at hc
    simp at hc

end Invariant

/-! ## The guarantee -/

/-- In every run whose insertions find their blob resident or unwritten since their store
read, a cached image differs from the store's only while its blob is dirty, flushing or
being marked, and every insertion publishes the image the store holds at that moment. -/
theorem cache_coherent {γ β : Type*} [DecidableEq γ] (store : γ → Option β) (n : ℕ)
    (as : List (Action γ β)) (m : Manager γ β)
    (hrun : Path step NoWriteSinceRead (Manager.open store n) as m) :
    Coherent m ∧ ∀ a m', NoWriteSinceRead m a → step m a = some m' → PublishesCurrent m m' := by
  have inv : Inv (fun _ => False) m :=
    hrun.invariant (fun _ _ _ hi hg hs => inv_step hi hg hs) (inv_open store n)
  exact ⟨fun guid c => inv.coherent guid c not_false,
    fun a m' hg hs => publishesCurrent_step inv hg hs⟩

/-- Two threads load one blob, one writes it, and a checkpoint writes it through while the
other waits; the frame stays resident, so the second insertion finds it. -/
def overlappingLoads : List (Action ℕ ℕ) :=
  [.pinMiss 0 7, .readBlob 0, .pinMiss 1 7, .readBlob 1, .insertIfAbsent 1, .mutate 1 1,
    .markDirty 1 5, .drainDirty 7, .readVersion 0, .cloneBytes 0, .beginBatch [0],
    .checkCurrent 0, .writeBlob 0, .retire 0, .endBatch, .insertIfAbsent 0]

theorem cache_coherent_overlappingLoads :
    ∃ m, exec step (Manager.open oneBlob 2) overlappingLoads = some m ∧ Coherent m := by
  obtain ⟨m, hexec, hpath, -⟩ := path_of_guardedTo (show guardedTo step NoWriteSinceRead
    (fun _ => True) (Manager.open oneBlob 2) overlappingLoads = true by decide)
  exact ⟨m, hexec, (cache_coherent oneBlob 2 overlappingLoads m hpath).1⟩

end Store
end Holt
