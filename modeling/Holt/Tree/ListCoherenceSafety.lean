import Holt.Lib.Table
import Holt.Tree.ListCoherence

/-!
# Listings reflect what was acknowledged before they were asked for

A listing is right if it is the listing of some map that has, under the key of every write
acknowledged before the scan started, what that write or a later write of the key left there,
and under every other key what the tree was opened with or some write left there.
A walk produces the map of the tree's keys with the delta's records; a cached listing was once
produced by a walk, and reflects every write whose number is below its epoch.

The second statement is what fails: a walk can run while a writer holds a number it has not
published, or while an operation that changes the key set is staged, and its listing is then
cached under an epoch that covers the write (`listing_misses_key`).  In a run in which walks
find the tree still, it holds, and so does the property of the scans (`listings_coherent`).
-/

namespace Holt
namespace Tree

open List Transition ListSystem

/-! ## Reflected writes -/

section Reflected

variable {published : List DeltaOp} {m : VersionedMap} {p : DeltaOp}

lemma Reflected.append (h : Reflected published m p) (extra : List DeltaOp) :
    Reflected (published ++ extra) m p := by
  obtain ⟨p', hp', hrest⟩ := h
  exact ⟨p', mem_append_left _ hp', hrest⟩

variable {m₀ : VersionedMap}

lemma Sourced.append (h : Sourced m₀ published m) (extra : List DeltaOp) :
    Sourced m₀ (published ++ extra) m := fun k =>
  (h k).imp id fun ⟨p, hp, hrest⟩ => ⟨p, mem_append_left _ hp, hrest⟩

/-- A write that is published last. -/
lemma Sourced.concat (h : Sourced m₀ published m) {m' : VersionedMap} {op : DeltaOp}
    (hkeep : ∀ k, m'.lookup k = m.lookup k ∨ k = op.key ∧ m'.lookup k = op.entry.record) :
    Sourced m₀ (published ++ [op]) m' := by
  intro k
  rcases hkeep k with hsame | ⟨rfl, hrecord⟩
  · rw [hsame]
    exact h.append [op] k
  · exact .inr ⟨op, by simp, rfl, hrecord⟩

lemma sourced_apply (m₀ : VersionedMap) (ops : List DeltaOp) :
    Sourced m₀ ops (applyWriteDeltaOps m₀ ops) := by
  induction ops using List.reverseRecOn with
  | nil => exact fun _ => .inl rfl
  | append_singleton ops x ih =>
    refine ih.concat fun k => ?_
    rw [applyWriteDeltaOps, foldl_append]
    have hlookup := lookup_applyDeltaOp (applyWriteDeltaOps m₀ ops) x k
    by_cases hk : k = x.key
    · exact .inr ⟨hk, hlookup.trans (if_pos hk)⟩
    · exact .inl (hlookup.trans (if_neg hk))

lemma ListingReflects.append {q : KeyRange} {l : List KeyEntry} {ws : List DeltaOp}
    (h : ListingReflects m₀ published q l ws) (extra : List DeltaOp) :
    ListingReflects m₀ (published ++ extra) q l ws := by
  obtain ⟨m, hl, hsourced, hws⟩ := h
  exact ⟨m, hl, hsourced.append extra, fun p hp => (hws p hp).append extra⟩

/-- A map with the same record under the key reflects the same write. -/
lemma Reflected.congr {m' : VersionedMap} (h : Reflected published m p)
    (heq : m'.lookup p.key = m.lookup p.key) : Reflected published m' p := by
  obtain ⟨p', hp', hkey, hseq, hrecord⟩ := h
  exact ⟨p', hp', hkey, hseq, heq.trans hrecord⟩

/-- The writes of one key are in the order of their numbers. -/
def KeyOrdered (ops : List DeltaOp) : Prop :=
  ops.Pairwise (fun a b => a.key = b.key → a.entry.seq < b.entry.seq)

lemma reflected_apply (m : VersionedMap) (ops : List DeltaOp) (h : KeyOrdered ops) (p : DeltaOp)
    (hp : p ∈ ops) : Reflected ops (applyWriteDeltaOps m ops) p := by
  induction ops using List.reverseRecOn with
  | nil => exact absurd hp not_mem_nil
  | append_singleton ops x ih =>
    obtain ⟨hops, -, hlast⟩ := pairwise_append.mp h
    have hlookup : (applyWriteDeltaOps m (ops ++ [x])).lookup p.key =
        if p.key = x.key then x.entry.record else (applyWriteDeltaOps m ops).lookup p.key := by
      rw [applyWriteDeltaOps, foldl_append]
      exact lookup_applyDeltaOp _ x p.key
    by_cases hkey : p.key = x.key
    · -- the last write is on the key, so its number is the largest
      rw [if_pos hkey] at hlookup
      refine ⟨x, by simp, hkey.symm, ?_, hlookup⟩
      rcases mem_append.mp hp with hp | hp
      · exact (hlast p hp x (by simp) hkey).le
      · obtain rfl : p = x := mem_singleton.mp hp
        exact le_rfl
    · rw [if_neg hkey] at hlookup
      have hmem : p ∈ ops := by
        rcases mem_append.mp hp with hp | hp
        · exact hp
        · exact absurd (congrArg DeltaOp.key (mem_singleton.mp hp)) hkey
      exact ((ih hops hmem).append [x]).congr hlookup

end Reflected

/-! ## The invariant -/

/-- A walk cannot miss the write: the tree has its key, or reflects it. -/
def Fresh (sys : ListSystem) (p : DeltaOp) : Prop :=
  (sys.store.art.lookup p.key).isSome ∨ Reflected sys.published sys.store.art p

/-- A listing that may be served under an epoch reflects all writes with smaller numbers, and
there are no more to come. -/
structure Lists (m : VersionedMap) (sys : ListSystem) (epoch : ℕ) (q : KeyRange)
    (entries : List KeyEntry) : Prop where
  epoch_le : epoch ≤ sys.store.nextSeq
  inFlight : ∀ w ∈ sys.writers, w.InFlight → epoch ≤ w.seq
  reflects : ListingReflects m sys.published q entries
    (sys.published.filter fun p => p.entry.seq < epoch)

structure WriterInv (sys : ListSystem) (w : Writer) : Prop where
  live : w.InFlight → w.createsKey = false → ∀ key value, w.op = .put key value →
    (sys.store.art.lookup key).isSome
  after : w.InFlight → ∀ p ∈ sys.published, p.key = w.op.key → p.entry.seq < w.seq
  seq_lt : w.InFlight → w.seq < sys.store.nextSeq
  published : ∀ p, w.phase = .published p → p ∈ sys.published

/-- What a scan knows in each phase. -/
def PhaseInv (m : VersionedMap) (sys : ListSystem) (scan : Scan) : ScanPhase → Prop
  | .started | .mustFlush => True
  | .flushed | .missed => ∀ p ∈ scan.acked, Fresh sys p
  | .probing epoch => ∀ p ∈ scan.acked, Fresh sys p ∧ p.entry.seq < epoch
  | .before epoch => epoch ≤ sys.store.nextSeq ∧ ∀ p ∈ scan.acked, Fresh sys p
  | .walked epoch entries | .storing epoch entries =>
    ListingReflects m sys.published scan.range entries scan.acked ∧
      (cacheableLimit scan.range.limit → Lists m sys epoch scan.range entries)
  | .done entries => ListingReflects m sys.published scan.range entries scan.acked

structure ScanInv (m : VersionedMap) (sys : ListSystem) (scan : Scan) : Prop where
  acked : ∀ p ∈ scan.acked, p ∈ sys.published
  phase : PhaseInv m sys scan scan.phase

structure ListInv (m : VersionedMap) (sys : ListSystem) : Prop where
  settled : sys.store.delta.Settled
  live : UnflaggedLive sys.store.art sys.store.delta
  contents : sys.store.contents = applyWriteDeltaOps m sys.published
  sourced : Sourced m sys.published sys.store.art
  ordered : KeyOrdered sys.published
  bounded : ∀ p ∈ sys.published, p.entry.seq < sys.store.nextSeq
  acked : ∀ p ∈ sys.acked, p ∈ sys.published
  writers : ∀ w ∈ sys.writers, WriterInv sys w
  locked : ∀ (i j : ℕ) (v w : Writer), sys.writers[i]? = some v → sys.writers[j]? = some w →
    v.InFlight → w.InFlight → v.op.key = w.op.key → i = j
  cached : ∀ i e, sys.store.cache.slots i = some e → Lists m sys e.epoch e.range e.entries
  scans : ∀ scan ∈ sys.scans, ScanInv m sys scan

variable {m : VersionedMap} {sys sys' : ListSystem}

lemma listInv_opened (m : VersionedMap) (n : ℕ) : ListInv m (ListSystem.opened m n) where
  settled := DeltaMaps.settled_empty
  live _ h := absurd h not_mem_nil
  contents := rfl
  sourced _ := .inl rfl
  ordered := List.Pairwise.nil
  bounded _ h := absurd h not_mem_nil
  acked _ h := absurd h not_mem_nil
  writers _ h := absurd h not_mem_nil
  locked i j v w hv := by simp [ListSystem.opened] at hv
  cached _ _ h := by cases h
  scans _ h := absurd h not_mem_nil

/-! ## What a step does to scans and cached listings -/

/-- Numbers go up, published writes are those of writers that were under way, and no walk loses
a write. -/
structure Advances (sys sys' : ListSystem) : Prop where
  nextSeq : sys.store.nextSeq ≤ sys'.store.nextSeq
  inFlight : ∀ w' ∈ sys'.writers, w'.InFlight →
    (∃ w ∈ sys.writers, w.InFlight ∧ w.seq = w'.seq) ∨ sys.store.nextSeq ≤ w'.seq
  published : ∃ extra, sys'.published = sys.published ++ extra ∧
    ∀ p ∈ extra, ∃ w ∈ sys.writers, w.InFlight ∧ w.seq = p.entry.seq
  fresh : ∀ p ∈ sys.published, Fresh sys p → Fresh sys' p

variable {p : DeltaOp}

lemma Advances.mem_published (h : Advances sys sys') (hp : p ∈ sys.published) :
    p ∈ sys'.published := by
  obtain ⟨extra, heq, -⟩ := h.published
  rw [heq]
  exact mem_append_left _ hp

variable {q : KeyRange} {l : List KeyEntry}

lemma Advances.reflects (h : Advances sys sys') {ws : List DeltaOp}
    (hl : ListingReflects m sys.published q l ws) : ListingReflects m sys'.published q l ws := by
  obtain ⟨extra, heq, -⟩ := h.published
  rw [heq]
  exact hl.append extra

variable {epoch : ℕ}

lemma Advances.lists (h : Advances sys sys') (hl : Lists m sys epoch q l) :
    Lists m sys' epoch q l where
  epoch_le := hl.epoch_le.trans h.nextSeq
  inFlight w' hw' hfl := by
    rcases h.inFlight w' hw' hfl with ⟨w, hw, hwfl, heq⟩ | hnew
    · exact heq ▸ hl.inFlight w hw hwfl
    · exact hl.epoch_le.trans hnew
  reflects := by
    obtain ⟨extra, heq, hextra⟩ := h.published
    -- the writers under way have numbers past the epoch, so nothing new is below it
    have hnone : extra.filter (fun p => p.entry.seq < epoch) = [] := by
      refine filter_eq_nil_iff.mpr fun p hp => ?_
      obtain ⟨w, hw, hfl, hseq⟩ := hextra p hp
      have := hl.inFlight w hw hfl
      simp only [decide_eq_true_eq, not_lt]
      omega
    rw [heq, filter_append, hnone, append_nil]
    exact hl.reflects.append extra

variable {scan : Scan}

lemma Advances.scanInv (h : Advances sys sys') (hs : ScanInv m sys scan) : ScanInv m sys' scan := by
  have hfresh : ∀ p ∈ scan.acked, Fresh sys p → Fresh sys' p := fun p hp =>
    h.fresh p (hs.acked p hp)
  refine ⟨fun p hp => h.mem_published (hs.acked p hp), ?_⟩
  have hphase := hs.phase
  cases hcase : scan.phase with
  | started => trivial
  | mustFlush => trivial
  | flushed | missed =>
    rw [hcase] at hphase
    exact fun p hp => hfresh p hp (hphase p hp)
  | probing epoch =>
    rw [hcase] at hphase
    exact fun p hp => ⟨hfresh p hp (hphase p hp).1, (hphase p hp).2⟩
  | before epoch =>
    rw [hcase] at hphase
    exact ⟨hphase.1.trans h.nextSeq, fun p hp => hfresh p hp (hphase.2 p hp)⟩
  | walked epoch entries | storing epoch entries =>
    rw [hcase] at hphase
    exact ⟨h.reflects hphase.1, fun hc => h.lists (hphase.2 hc)⟩
  | done entries =>
    rw [hcase] at hphase
    exact h.reflects hphase

variable {w : Writer}

/-- A writer under way keeps its place if nothing is published on its key and the tree keeps
the key. -/
lemma Advances.writerInv (h : Advances sys sys') (hw : WriterInv sys w)
    (hlive : w.InFlight → (sys.store.art.lookup w.op.key).isSome →
      (sys'.store.art.lookup w.op.key).isSome)
    (hnew : w.InFlight → ∀ p ∈ sys'.published, p ∈ sys.published ∨ p.key ≠ w.op.key) :
    WriterInv sys' w where
  live hfl hflag key value hop := by
    have hkey : w.op.key = key := by rw [hop]; rfl
    exact hkey ▸ hlive hfl (hkey ▸ hw.live hfl hflag key value hop)
  after hfl p hp hkey := (hnew hfl p hp).elim (fun hold => hw.after hfl p hold hkey)
    (fun hne => absurd hkey hne)
  seq_lt hfl := (hw.seq_lt hfl).trans_le h.nextSeq
  published p hp := h.mem_published (hw.published p hp)

variable (h : ListInv m sys)
include h

/-- Every published write is reflected in what readers see. -/
lemma ListInv.reflected_contents (hp : p ∈ sys.published) :
    Reflected sys.published sys.store.contents p := by
  rw [h.contents]
  exact reflected_apply m _ h.ordered p hp

lemma ListInv.sourced_contents :
    Sourced m sys.published sys.store.contents := by
  rw [h.contents]
  exact sourced_apply m sys.published

/-! ## Writers -/

variable {i : ℕ} {v : Writer}

omit h in
/-- The writers of an updated table: the moved one, or one of the others. -/
lemma mem_set_writers (h : w ∈ sys.writers.set i v) : w = v ∨ w ∈ sys.writers := by
  rcases mem_or_eq_of_mem_set h with h | h
  · exact .inr h
  · exact .inl h

/-- Moving a writer on, past its publication or not, keeps the locks. -/
lemma ListInv.locked_set (hi : sys.writers[i]? = some w) (hkey : v.op = w.op)
    (hfl : v.InFlight → w.InFlight) :
    ∀ (a b : ℕ) (x y : Writer), (sys.writers.set i v)[a]? = some x →
      (sys.writers.set i v)[b]? = some y → x.InFlight → y.InFlight → x.op.key = y.op.key →
      a = b := by
  -- every writer of the new table stands for one of the old table at the same index
  have hold : ∀ (a : ℕ) (x : Writer), (sys.writers.set i v)[a]? = some x → x.InFlight →
      ∃ x', sys.writers[a]? = some x' ∧ x'.InFlight ∧ x'.op = x.op := by
    intro a x hx hxfl
    rcases Table.getElem?_set_cases hx with ⟨rfl, rfl⟩ | ⟨-, hx⟩
    · exact ⟨w, hi, hfl hxfl, hkey.symm⟩
    · exact ⟨x, hx, hxfl, rfl⟩
  intro a b x y hx hy hxfl hyfl hxy
  obtain ⟨x', hx', hxfl', hxop⟩ := hold a x hx hxfl
  obtain ⟨y', hy', hyfl', hyop⟩ := hold b y hy hyfl
  exact h.locked a b x' y' hx' hy' hxfl' hyfl' (by rw [hxop, hyop, hxy])

/-- A step of a writer that leaves the store and the published writes alone. -/
lemma ListInv.setWriter (hi : sys.writers[i]? = some w) {phase : WriterPhase}
    (hfl : Writer.InFlight { w with phase := phase } → w.InFlight)
    (hpub : ∀ p, phase = .published p → p ∈ sys.published) :
    ListInv m (sys.setWriter i { w with phase := phase }) := by
  have hw := h.writers w (mem_of_getElem? hi)
  have hadv : Advances sys (sys.setWriter i { w with phase := phase }) := {
    nextSeq := le_rfl
    inFlight := fun w' hw' hfl' => by
      rcases mem_set_writers hw' with rfl | hmem
      · exact .inl ⟨w, mem_of_getElem? hi, hfl hfl', rfl⟩
      · exact .inl ⟨w', hmem, hfl', rfl⟩
    published := ⟨[], (append_nil _).symm, fun _ hp => absurd hp not_mem_nil⟩
    fresh := fun _ _ hp => hp }
  exact { h with
    writers := fun w' hw' => by
      rcases mem_set_writers hw' with rfl | hmem
      · exact ⟨fun hf => hw.live (hfl hf), fun hf => hw.after (hfl hf), fun hf =>
          hw.seq_lt (hfl hf),
          hpub⟩
      · exact hadv.writerInv (h.writers w' hmem) (fun _ hsome => hsome) (fun _ p hp => .inl hp)
    locked := h.locked_set hi rfl hfl
    cached := fun k e he => hadv.lists (h.cached k e he)
    scans := fun scan hscan => hadv.scanInv (h.scans scan hscan) }

lemma ListInv.finish (hi : sys.writers[i]? = some w) :
    ListInv m (sys.setWriter i { w with phase := .finished }) :=
  h.setWriter hi (fun hf => by simp [Writer.InFlight] at hf) (fun p hp => by cases hp)

lemma ListInv.number {op : WriteOp} (hlock : ∀ w ∈ sys.writers, w.InFlight → w.op.key ≠ op.key)
    (hguard : Orderly sys (.begin op)) : ListInv m (sys.number op) := by
  have hadv : Advances sys (sys.number op) := {
    nextSeq := Nat.le_succ _
    inFlight := fun w' hw' hfl' => by
      rcases Table.mem_concat hw' with hmem | rfl
      · exact .inl ⟨w', hmem, hfl', rfl⟩
      · exact .inr le_rfl
    published := ⟨[], (append_nil _).symm, fun _ hp => absurd hp not_mem_nil⟩
    fresh := fun _ _ hp => hp }
  have hnew : WriterInv (sys.number op)
      ⟨op, sys.store.nextSeq, (sys.store.getVersion op.key).isNone, .numbered⟩ := {
    live := fun _ hflag key value hop => by
      obtain rfl : op = .put key value := hop
      exact live_of_put h.settled h.live hguard.2.2 hflag
    after := fun _ p hp _ => h.bounded p hp
    seq_lt := fun _ => Nat.lt_succ_self _
    published := fun p hp => by cases hp }
  exact { h with
    bounded := fun p hp => (h.bounded p hp).trans (Nat.lt_succ_self _)
    writers := fun w' hw' => by
      rcases Table.mem_concat hw' with hmem | rfl
      · exact hadv.writerInv (h.writers w' hmem) (fun _ hsome => hsome) (fun _ p hp => .inl hp)
      · exact hnew
    locked := fun i j v w hv hw hvfl hwfl hkey => by
      rcases Table.getElem?_append_cases hv with hv | ⟨rfl, rfl⟩
      · rcases Table.getElem?_append_cases hw with hw | ⟨-, rfl⟩
        · exact h.locked i j v w hv hw hvfl hwfl hkey
        · exact absurd hkey (hlock v (mem_of_getElem? hv) hvfl)
      · rcases Table.getElem?_append_cases hw with hw | ⟨rfl, -⟩
        · exact absurd hkey.symm (hlock w (mem_of_getElem? hw) hwfl)
        · rfl
    cached := fun k e he => hadv.lists (h.cached k e he)
    scans := fun scan hscan => hadv.scanInv (h.scans scan hscan) }

variable {op : DeltaOp}

/-- The order of the published writes after a writer has published its own. -/
lemma ListInv.ordered_append (hw : w ∈ sys.writers) (hfl : w.InFlight) (hkey : op.key = w.op.key)
    (hseq : op.entry.seq = w.seq) :
    KeyOrdered (sys.published ++ [op]) := by
  refine pairwise_append.mpr ⟨h.ordered, pairwise_singleton _ _, fun p hp x hx hpx => ?_⟩
  obtain rfl : x = op := mem_singleton.mp hx
  rw [hseq]
  exact (h.writers w hw).after hfl p hp (hpx.trans hkey)

lemma ListInv.bounded_append (hw : w ∈ sys.writers) (hfl : w.InFlight)
    (hseq : op.entry.seq = w.seq) :
    ∀ p ∈ sys.published ++ [op], p.entry.seq < sys.store.nextSeq := by
  intro p hp
  rcases mem_append.mp hp with hp | hp
  · exact h.bounded p hp
  · obtain rfl : p = op := mem_singleton.mp hp
    rw [hseq]
    exact (h.writers w hw).seq_lt hfl

variable {j : ℕ}

lemma ListInv.key_ne (hi : sys.writers[i]? = some w) (hfl : w.InFlight)
    (hj : sys.writers[j]? = some v) (hne : j ≠ i) (hvfl : v.InFlight) :
    w.op.key ≠ v.op.key := fun hkey =>
  hne (h.locked j i v w hj hi hvfl hfl hkey.symm)

/-- Publishing the operation of a writer: what is left to show is what happens to the store. -/
lemma ListInv.publish (hi : sys.writers[i]? = some w) (hfl : w.InFlight) (hkey : op.key = w.op.key)
    (hseq : op.entry.seq = w.seq) {art : VersionedMap} {delta : DeltaMaps}
    (hsettled : delta.Settled) (hlive : UnflaggedLive art delta)
    (hcontents : KeyStore.contents { sys.store with art := art, delta := delta } =
      applyDeltaOp sys.store.contents op)
    (hart : ∀ k, k ≠ op.key → art.lookup k = sys.store.art.lookup k)
    (hop : art.lookup op.key = sys.store.art.lookup op.key ∨ art.lookup op.key = op.entry.record)
    (hfresh : ∀ p ∈ sys.published, p.key = op.key → Fresh sys p →
      (art.lookup p.key).isSome ∨ Reflected (sys.published ++ [op]) art p) : ListInv m { sys with
      store := { sys.store with art := art, delta := delta }
      writers := sys.writers.set i { w with phase := .published op }
      published := sys.published ++ [op] } := by
  have hw := mem_of_getElem? hi
  have hdone : ¬ Writer.InFlight { w with phase := .published op } := by simp [Writer.InFlight]
  have hadv : Advances sys { sys with
      store := { sys.store with art := art, delta := delta }
      writers := sys.writers.set i { w with phase := .published op }
      published := sys.published ++ [op] } := {
    nextSeq := le_rfl
    inFlight := fun w' hw' hfl' => by
      rcases mem_set_writers hw' with rfl | hmem
      · exact absurd hfl' hdone
      · exact .inl ⟨w', hmem, hfl', rfl⟩
    published := ⟨[op], rfl, fun p hp => ⟨w, hw, hfl, by rw [mem_singleton.mp hp, hseq]⟩⟩
    fresh := fun p hp hold => by
      by_cases hpk : p.key = op.key
      · exact hfresh p hp hpk hold
      · rcases hold with hsome | hrefl
        · exact .inl (by rw [hart p.key hpk]; exact hsome)
        · exact .inr ((hrefl.append [op]).congr (hart p.key hpk)) }
  exact {
    settled := hsettled
    live := hlive
    contents := by
      rw [hcontents, h.contents, applyWriteDeltaOps, applyWriteDeltaOps, foldl_append]
      rfl
    sourced := h.sourced.concat fun k => by
      rcases eq_or_ne k op.key with rfl | hk
      · exact hop.imp id fun hrecord => ⟨rfl, hrecord⟩
      · exact .inl (hart k hk)
    ordered := h.ordered_append hw hfl hkey hseq
    bounded := h.bounded_append hw hfl hseq
    acked := fun p hp => mem_append_left _ (h.acked p hp)
    writers := fun w' hw' => by
      obtain ⟨j, hj⟩ := mem_iff_getElem?.mp hw'
      rcases Table.getElem?_set_cases hj with ⟨-, rfl⟩ | ⟨hne, hj⟩
      · refine ⟨fun hf => absurd hf hdone, fun hf => absurd hf hdone, fun hf => absurd hf hdone, ?_⟩
        intro p hp
        obtain rfl : op = p := WriterPhase.published.inj hp
        simp
      · have hother : w'.InFlight → op.key ≠ w'.op.key := fun hf =>
          hkey ▸ h.key_ne hi hfl hj hne hf
        refine hadv.writerInv (h.writers w' (mem_of_getElem? hj)) (fun hf hsome => ?_)
          (fun hf p hp => ?_)
        · show (art.lookup w'.op.key).isSome = true
          rw [hart _ (hother hf).symm]
          exact hsome
        · rcases mem_append.mp hp with hp | hp
          · exact .inl hp
          · exact .inr (by rw [mem_singleton.mp hp]; exact hother hf)
    locked := h.locked_set hi rfl (fun hf => absurd hf hdone)
    cached := fun k e he => hadv.lists (h.cached k e he)
    scans := fun scan hscan => hadv.scanInv (h.scans scan hscan) }

lemma ListInv.stage (hi : sys.writers[i]? = some w) (hfl : w.InFlight) {op : StagedOp}
    (hkey : op.key = w.op.key) (hseq : op.entry.forget.seq = w.seq)
    (hop : op.entry.changesKeySet = false → (sys.store.art.lookup op.key).isSome) :
    ListInv m (sys.stage i w op) :=
  h.publish hi hfl hkey hseq (h.settled.insertPending op) (h.live.insertPending hop)
    (contents_insertPending h.settled op) (fun _ _ => rfl) (.inl rfl)
    (fun _ _ _ hold => hold.imp id (fun hrefl => hrefl.append [op.forget]))

lemma ListInv.change (hi : sys.writers[i]? = some w) (hfl : w.InFlight) (hkey : op.key = w.op.key)
    (hseq : op.entry.seq = w.seq) (hunstaged : sys.store.delta.get w.op.key = none) :
    ListInv m (sys.change i w op) := by
  have hnone : findStaged sys.store.delta.pending op.key = none := by
    rw [hkey, ← h.settled.get]
    exact hunstaged
  have hart : ∀ k, k ≠ op.key →
      (applyDeltaOp sys.store.art op).lookup k = sys.store.art.lookup k := fun k hk => by
    rw [lookup_applyDeltaOp, if_neg hk]
  have hop : (applyDeltaOp sys.store.art op).lookup op.key = op.entry.record := by
    rw [lookup_applyDeltaOp, if_pos rfl]
  refine h.publish hi hfl hkey hseq h.settled (fun d hd hflag => ?_) ?_ hart (.inr hop)
    (fun p hp hpk _ => ?_)
  · have hne : d.key ≠ op.key := fun heq =>
      findStaged_eq_none.mp hnone (heq ▸ List.mem_map_of_mem hd)
    rw [hart _ hne]
    exact h.live d hd hflag
  · refine Finmap.ext_lookup fun k => ?_
    have hlookup := fun art => lookup_applyWriteDeltaOps (stagedOnce_forget h.settled.once) art k
    simp only [lookupWriteDelta_forget] at hlookup
    rw [lookup_applyDeltaOp, KeyStore.contents, KeyStore.contents, hlookup, hlookup,
      lookup_applyDeltaOp]
    by_cases hk : k = op.key
    · rw [if_pos hk, hk, hnone]
      simp
    · rw [if_neg hk, if_neg hk]
  · refine .inr ⟨op, by simp, hpk.symm, ?_, ?_⟩
    · rw [hseq]
      exact ((h.writers w (mem_of_getElem? hi)).after hfl p hp (hpk.trans hkey)).le
    · rw [lookup_applyDeltaOp, if_pos hpk]

/-- The flush waits for the writers under way, so their promises about the tree do not
matter. -/
lemma ListInv.flush (hfree : sys.GateFree) : ListInv m sys.flush := by
  have hflush : sys.store.flush = { sys.store with art := sys.store.contents, delta := .empty } :=
    flush_eq h.settled
  have hadv : Advances sys sys.flush := {
    nextSeq := le_rfl
    inFlight := fun w' hw' hfl' => absurd hfl' (hfree w' hw')
    published := ⟨[], (append_nil _).symm, fun _ hp => absurd hp not_mem_nil⟩
    fresh := fun p hp _ => .inr (by
      show Reflected sys.published sys.store.flush.art p
      rw [hflush]
      exact h.reflected_contents hp) }
  exact { h with
    settled := by
      show sys.store.flush.delta.Settled
      rw [hflush]
      exact DeltaMaps.settled_empty
    live := by
      show UnflaggedLive sys.store.flush.art sys.store.flush.delta
      rw [hflush]
      exact fun _ hmem => absurd hmem not_mem_nil
    contents := by
      show sys.store.flush.contents = _
      rw [hflush]
      exact h.contents
    sourced := by
      show Sourced m sys.published sys.store.flush.art
      rw [hflush]
      exact h.sourced_contents
    writers := fun w hw => hadv.writerInv (h.writers w hw) (fun hf => absurd hf (hfree w hw))
      (fun hf => absurd hf (hfree w hw))
    cached := fun k e he => hadv.lists (h.cached k e he)
    scans := fun scan hscan => hadv.scanInv (h.scans scan hscan) }

/-! ## Walks -/

/-- The map a walk lists: the keys of the tree, with what readers see under them. -/
def walkedMap (art : VersionedMap) (d : DeltaMaps) : VersionedMap :=
  applyWriteDeltaOps art
    ((d.pending.filter fun op => (art.lookup op.key).isSome).map StagedOp.forget)

omit h

lemma findStaged_filter (p : Key → Bool) (ops : List StagedOp) (k : Key) :
    findStaged (ops.filter fun op => p op.key) k = if p k then findStaged ops k else none := by
  induction ops with
  | nil => simp [findStaged]
  | cons op ops ih =>
    by_cases hp : p op.key = true
    · rw [filter_cons, if_pos hp, findStaged_cons, findStaged_cons, ih]
      by_cases hk : op.key = k
      · rw [if_pos hk, if_pos hk, if_pos (hk ▸ hp)]
      · rw [if_neg hk, if_neg hk]
    · rw [filter_cons, if_neg hp, ih, findStaged_cons]
      by_cases hk : op.key = k
      · rw [if_neg (hk ▸ hp), if_neg (hk ▸ hp)]
      · rw [if_neg hk]

lemma lookup_walkedMap {s : KeyStore} (h : s.delta.Settled) (k : Key) :
    (walkedMap s.art s.delta).lookup k =
      if (s.art.lookup k).isSome then s.contents.lookup k else none := by
  have honce : OncePerKey (s.delta.pending.filter fun op => (s.art.lookup op.key).isSome) :=
    h.once.sublist (filter_sublist.map _)
  have hwalked := lookup_applyWriteDeltaOps (stagedOnce_forget honce) s.art k
  have hcontents := lookup_applyWriteDeltaOps (stagedOnce_forget h.once) s.art k
  rw [lookupWriteDelta_forget, findStaged_filter fun k => (s.art.lookup k).isSome] at hwalked
  rw [lookupWriteDelta_forget] at hcontents
  rw [walkedMap, hwalked, KeyStore.contents, hcontents]
  by_cases hk : (s.art.lookup k).isSome = true
  · simp only [if_pos hk]
  · simp only [if_neg hk]
    exact Option.not_isSome_iff_eq_none.mp hk

lemma walkKeys_eq_walkedMap {s : KeyStore} (h : s.delta.Settled)
    (hdel : ∀ op ∈ s.delta.pending, op.entry ≠ .delete op.entry.seq) (q : KeyRange) :
    walkKeys s.art s.delta q = listKeys (walkedMap s.art s.delta) q := by
  have hcontents := fun k => lookup_applyWriteDeltaOps (stagedOnce_forget h.once) s.art k
  simp only [lookupWriteDelta_forget] at hcontents
  refine walkKeys_eq_listKeys (fun k => ?_) (fun k hk => ?_) q
  · rw [lookup_walkedMap h]
    by_cases hk : (s.art.lookup k).isSome = true
    · rw [if_pos hk, hk, KeyStore.contents, hcontents]
      cases hfind : findStaged s.delta.pending k with
      | none => exact hk.symm
      | some e =>
        obtain ⟨d, hd, rfl⟩ := Option.map_eq_some_iff.mp hfind
        cases hentry : d.entry with
        | put v seq flag => rfl
        | delete seq =>
          have := hdel d (mem_of_find?_eq_some hd)
          rw [hentry] at this
          exact absurd rfl this
    · rw [if_neg hk]
      simpa using hk
  · rw [overlay_keyEntry h hk, keyEntry, keyEntry, lookup_walkedMap h, if_pos hk]
    rfl

include h

lemma ListInv.reflected_walkedMap (hp : p ∈ sys.published) (hfresh : Fresh sys p) :
    Reflected sys.published (walkedMap sys.store.art sys.store.delta) p := by
  have hlookup := lookup_walkedMap h.settled p.key
  by_cases hk : (sys.store.art.lookup p.key).isSome = true
  · rw [if_pos hk] at hlookup
    exact (h.reflected_contents hp).congr hlookup
  · rw [if_neg hk] at hlookup
    have hrefl : Reflected sys.published sys.store.art p := hfresh.resolve_left hk
    exact hrefl.congr (hlookup.trans (Option.not_isSome_iff_eq_none.mp hk).symm)

lemma ListInv.sourced_walkedMap :
    Sourced m sys.published (walkedMap sys.store.art sys.store.delta) := by
  intro k
  have hlookup := lookup_walkedMap h.settled k
  by_cases hk : (sys.store.art.lookup k).isSome = true
  · rw [hlookup, if_pos hk]
    exact h.sourced_contents k
  · rw [hlookup, if_neg hk, ← Option.not_isSome_iff_eq_none.mp hk]
    exact h.sourced k

omit h in
lemma UnflaggedLive.staged {art : VersionedMap} {d : DeltaMaps} (hlive : UnflaggedLive art d)
    (hsettled : d.Settled) (hcount : d.treeKeySetLen = 0) {op : StagedOp} (hop : op ∈ d.pending) :
    (art.lookup op.key).isSome :=
  hlive op hop (hsettled.treeKeySetLen_eq_zero.mp hcount op hop)

/-- With no key-set change staged, every published write is fresh. -/
lemma ListInv.fresh (hcount : sys.store.delta.treeKeySetLen = 0) (hp : p ∈ sys.published) :
    Fresh sys p := by
  by_cases hstaged : p.key ∈ sys.store.delta.pending.map StagedOp.key
  · obtain ⟨op, hop, hkey⟩ := List.mem_map.mp hstaged
    exact .inl (hkey ▸ h.live.staged h.settled hcount hop)
  · refine .inr ((h.reflected_contents hp).congr ?_)
    have hcontents := lookup_applyWriteDeltaOps
      (stagedOnce_forget h.settled.once) sys.store.art p.key
    rw [lookupWriteDelta_forget, findStaged_eq_none.mpr hstaged] at hcontents
    exact hcontents.symm

lemma ListInv.walk (hscan : ScanInv m sys scan) (hphase : scan.phase = .before epoch)
    (hstill : StillWalk sys scan.range) :
    PhaseInv m sys scan (.walked epoch (walkKeys sys.store.art sys.store.delta scan.range)) := by
  obtain ⟨hepoch, hfresh⟩ : epoch ≤ sys.store.nextSeq ∧ ∀ p ∈ scan.acked, Fresh sys p := by
    have := hscan.phase
    rwa [hphase] at this
  have hdel : ∀ op ∈ sys.store.delta.pending, op.entry ≠ .delete op.entry.seq := by
    unfold StillWalk at hstill
    by_cases hc : cacheableLimit scan.range.limit = true
    · rw [if_pos hc] at hstill
      intro op hop heq
      have hflag := h.settled.treeKeySetLen_eq_zero.mp hstill.1 op hop
      rw [heq] at hflag
      exact Bool.noConfusion hflag
    · rwa [if_neg hc] at hstill
  have hlist := walkKeys_eq_walkedMap h.settled hdel scan.range
  refine ⟨⟨_, hlist, h.sourced_walkedMap,
    fun p hp => h.reflected_walkedMap (hscan.acked p hp) (hfresh p hp)⟩, fun hc => ?_⟩
  rw [StillWalk, if_pos hc] at hstill
  obtain ⟨hcount, hfree⟩ := hstill
  exact {
    epoch_le := hepoch
    inFlight := fun w hw hfl => absurd hfl (hfree w hw)
    reflects := ⟨_, hlist, h.sourced_walkedMap, fun p hp =>
      have hpub := (mem_filter.mp hp).1
      h.reflected_walkedMap hpub (h.fresh hcount hpub)⟩ }

/-! ## Steps of a scan -/

/-- A step that changes only the cache, the scans and the list of acknowledged writes. -/
lemma ListInv.frame {cache : PrefixListCache} {scans : List Scan} {acked : List DeltaOp}
    (hacked : ∀ p ∈ acked, p ∈ sys.published)
    (hcached : ∀ i e, cache.slots i = some e → Lists m sys e.epoch e.range e.entries)
    (hscans : ∀ scan ∈ scans, ScanInv m sys scan) :
    ListInv m { sys with
      store := { sys.store with cache := cache }
      scans := scans
      acked := acked } := by
  have hadv : Advances sys { sys with
      store := { sys.store with cache := cache }
      scans := scans
      acked := acked } := {
    nextSeq := le_rfl
    inFlight := fun w hw hfl => .inl ⟨w, hw, hfl, rfl⟩
    published := ⟨[], (append_nil _).symm, fun _ hp => absurd hp not_mem_nil⟩
    fresh := fun _ _ hp => hp }
  exact { h with
    acked := hacked
    writers := fun w hw => hadv.writerInv (h.writers w hw) (fun _ hs => hs) (fun _ p hp => .inl hp)
    cached := fun k e he => hadv.lists (hcached k e he)
    scans := fun x hx => hadv.scanInv (hscans x hx) }

lemma ListInv.setScan (hj : sys.scans[j]? = some scan) {phase : ScanPhase}
    (hphase : PhaseInv m sys scan phase) : ListInv m (sys.setScan j scan phase) := by
  refine h.frame h.acked h.cached fun x hx => ?_
  rcases mem_or_eq_of_mem_set hx with hx | rfl
  · exact h.scans x hx
  · exact ⟨(h.scans scan (mem_of_getElem? hj)).acked, hphase⟩

variable {cacheHash : KeyRange → ℕ}

lemma ListInv.storeListing (hl : cacheableLimit q.limit → Lists m sys epoch q l) :
    ListInv m { sys with store := { sys.store with
      cache := sys.store.cache.store cacheHash epoch q l } } := by
  refine h.frame h.acked (fun k e he => ?_) h.scans
  rcases PrefixListCache.slots_store he with ⟨hc, rfl⟩ | hold
  · exact hl hc
  · exact h.cached k e hold

lemma ListInv.ack (hp : p ∈ sys.published) :
    ListInv m { sys with acked := sys.acked ++ [p] } := by
  refine h.frame (fun x hx => ?_) h.cached h.scans
  rcases mem_append.mp hx with hx | hx
  · exact h.acked x hx
  · rw [mem_singleton.mp hx]
    exact hp

lemma ListInv.newScan (q : KeyRange) :
    ListInv m { sys with scans :=
      sys.scans ++ [⟨q, sys.acked, if q.limit = 0 then .done [] else .started⟩] } := by
  refine h.frame h.acked h.cached fun x hx => ?_
  rcases Table.mem_concat hx with hx | rfl
  · exact h.scans x hx
  · refine ⟨h.acked, ?_⟩
    by_cases hlimit : q.limit = 0
    · simp only [if_pos hlimit]
      exact ⟨sys.store.contents, by simp [listKeys, hlimit], h.sourced_contents,
        fun p hp => h.reflected_contents (h.acked p hp)⟩
    · simp only [if_neg hlimit]
      trivial

lemma listInv_scanStep (hj : sys.scans[j]? = some scan) {step : ScanMove}
    (hguard : Orderly sys (.move j step)) (hstep : scanStep cacheHash sys j scan step = some sys') :
    ListInv m sys' := by
  have hscan := h.scans scan (mem_of_getElem? hj)
  have hphase := hscan.phase
  cases step with
  | check =>
    obtain ⟨-, rfl⟩ := guard_eq_some.mp hstep
    refine h.setScan hj ?_
    by_cases hcount : sys.store.delta.treeKeySetLen = 0
    · rw [if_pos hcount]
      exact fun p hp => h.fresh hcount (hscan.acked p hp)
    · rw [if_neg hcount]
      trivial
  | flush =>
    obtain ⟨⟨-, hfree⟩, rfl⟩ := guard_eq_some.mp hstep
    have hflushed := h.flush hfree
    have hcount : sys.flush.store.delta.treeKeySetLen = 0 := by
      show sys.store.flush.delta.treeKeySetLen = 0
      rw [flush_eq h.settled]
      rfl
    exact hflushed.setScan hj fun p hp => hflushed.fresh hcount (hscan.acked p hp)
  | loadEpoch =>
    obtain ⟨hcase, rfl⟩ := guard_eq_some.mp hstep
    rw [hcase] at hphase
    exact h.setScan hj fun p hp => ⟨hphase p hp, h.bounded p (hscan.acked p hp)⟩
  | serve =>
    simp only [scanStep] at hstep
    cases hcase : scan.phase with
    | probing epoch =>
      rw [hcase] at hphase
      simp only [hcase] at hstep
      cases hhit : sys.store.cache.visit cacheHash epoch scan.range with
      | none =>
        simp only [hhit, Option.some.injEq] at hstep
        obtain rfl := hstep
        exact h.setScan hj fun p hp => (hphase p hp).1
      | some entries =>
        simp only [hhit, Option.some.injEq] at hstep
        obtain rfl := hstep
        obtain ⟨k, e, hslot, rfl, hrange, rfl⟩ := PrefixListCache.exists_of_visit hhit
        obtain ⟨m', hlist, hsourced, hall⟩ := (h.cached k e hslot).reflects
        refine h.setScan hj ⟨m', hrange ▸ hlist, hsourced, fun p hp => hall p ?_⟩
        exact mem_filter.mpr ⟨hscan.acked p hp, by simpa using (hphase p hp).2⟩
    | _ => simp [hcase] at hstep
  | loadBefore =>
    obtain ⟨hcase, rfl⟩ := guard_eq_some.mp hstep
    rw [hcase] at hphase
    exact h.setScan hj ⟨le_rfl, hphase⟩
  | walk =>
    simp only [scanStep] at hstep
    cases hcase : scan.phase with
    | before epoch =>
      simp only [hcase, Option.some.injEq] at hstep
      obtain rfl := hstep
      exact h.setScan hj (h.walk hscan hcase (hguard.2 scan hj))
    | _ => simp [hcase] at hstep
  | loadAfter =>
    simp only [scanStep] at hstep
    cases hcase : scan.phase with
    | walked epoch entries =>
      rw [hcase] at hphase
      simp only [hcase, Option.some.injEq] at hstep
      obtain rfl := hstep
      refine h.setScan hj ?_
      by_cases hepoch : epoch = sys.store.nextSeq
      · rw [if_pos hepoch]
        exact hphase
      · rw [if_neg hepoch]
        exact hphase.1
    | _ => simp [hcase] at hstep
  | store =>
    simp only [scanStep] at hstep
    cases hcase : scan.phase with
    | storing epoch entries =>
      rw [hcase] at hphase
      simp only [hcase, Option.some.injEq] at hstep
      obtain rfl := hstep
      exact (h.storeListing hphase.2).setScan hj hphase.1
    | _ => simp [hcase] at hstep

/-! ## Runs -/

lemma listInv_publishWrite (hi : sys.writers[i]? = some w) (hguard : Orderly sys (.publish i))
    (hstep : publishWrite sys i w = some sys') :
    ListInv m sys' := by
  have hw := h.writers w (mem_of_getElem? hi)
  have hunstaged := hguard.2 w hi
  unfold publishWrite at hstep
  cases hop : w.op with
  | put key value =>
    cases hphase : w.phase with
    | submitted =>
      simp only [hop, hphase, Option.some.injEq] at hstep
      obtain rfl := hstep
      have hfl : w.InFlight := .inr hphase
      exact h.stage hi hfl (by rw [hop]; rfl) rfl fun hflag => hw.live hfl hflag key value hop
    | _ => simp [hop, hphase] at hstep
  | delete key =>
    cases hphase : w.phase with
    | submitted =>
      simp only [hop, hphase, Option.some.injEq] at hstep
      obtain rfl := hstep
      exact h.stage hi (.inr hphase) (by rw [hop]; rfl) rfl fun hflag => Bool.noConfusion hflag
    | _ => simp [hop, hphase] at hstep
  | insert key value condition | erase key condition =>
    cases hphase : w.phase with
    | numbered =>
      simp only [hop, hphase, Option.some.injEq] at hstep
      obtain rfl := hstep
      by_cases hallowed : condition.allows (sys.store.art.lookup key) = true
      · rw [if_pos hallowed]
        exact h.change hi (.inl hphase) (by rw [hop]; rfl) rfl (hunstaged (by rw [hop]; rfl))
      · rw [if_neg hallowed, ← hop]
        exact h.finish hi
    | _ => simp [hop, hphase] at hstep

lemma listInv_step {a : ListAction} (hguard : Orderly sys a)
    (hstep : listStep cacheHash sys a = some sys') : ListInv m sys' := by
  cases a with
  | begin op =>
    obtain ⟨⟨hlock, -⟩, rfl⟩ := guard_eq_some.mp hstep
    exact h.number hlock hguard
  | submit i =>
    simp only [listStep] at hstep
    cases hi : sys.writers[i]? with
    | none => simp [hi] at hstep
    | some w =>
      simp only [hi, Option.ite_none_right_eq_some, Option.some.injEq] at hstep
      obtain ⟨⟨-, hphase⟩, rfl⟩ := hstep
      exact h.setWriter hi (fun _ => .inl hphase) (fun p hp => by cases hp)
  | publish i =>
    simp only [listStep] at hstep
    cases hi : sys.writers[i]? with
    | none => simp [hi] at hstep
    | some w =>
      simp only [hi] at hstep
      exact listInv_publishWrite h hi hguard hstep
  | ack i =>
    simp only [listStep] at hstep
    cases hi : sys.writers[i]? with
    | none => simp [hi] at hstep
    | some w =>
      simp only [hi] at hstep
      cases hphase : w.phase with
      | published p =>
        simp only [hphase, Option.some.injEq] at hstep
        obtain rfl := hstep
        have hp := (h.writers w (mem_of_getElem? hi)).published p hphase
        exact (h.finish hi).ack hp
      | _ => simp [hphase] at hstep
  | flush =>
    obtain ⟨hfree, rfl⟩ := guard_eq_some.mp hstep
    exact h.flush hfree
  | scan q =>
    cases hstep
    exact h.newScan q
  | move j step =>
    simp only [listStep] at hstep
    cases hj : sys.scans[j]? with
    | none => simp [hj] at hstep
    | some scan =>
      simp only [hj] at hstep
      exact listInv_scanStep h hj hguard hstep

omit h

/-- The whole tree, ten entries at most. -/
def firstTen : KeyRange := ⟨[], none, 10⟩

/-- A scan that is not served from the cache. -/
def scanAll (j : ℕ) : List ListAction :=
  [.move j .check, .move j .flush, .move j .loadEpoch, .move j .serve, .move j .loadBefore,
    .move j .walk, .move j .loadAfter, .move j .store]

/-- A put returns, one scan walks and caches its listing, the next is served from the cache. -/
def scannedTwice : List ListAction :=
  [.begin (.put [1] [7]), .submit 0, .publish 0, .ack 0, .scan firstTen] ++ scanAll 0 ++
    [.scan firstTen, .move 1 .check, .move 1 .loadEpoch, .move 1 .serve]

/-- A put has its number when a scan walks and caches what it found; the put is staged and
returns, and the next scan finds the epoch unchanged. -/
def walkedTooEarly : List ListAction :=
  [.begin (.put [1] [7]), .scan firstTen, .move 0 .check, .move 0 .loadEpoch, .move 0 .serve,
    .move 0 .loadBefore, .move 0 .walk, .move 0 .loadAfter, .move 0 .store, .submit 0, .publish 0,
    .ack 0, .scan firstTen, .move 1 .check, .move 1 .flush, .move 1 .loadEpoch, .move 1 .serve]

lemma not_listingReflects_nil {m₀ : VersionedMap} {published : List DeltaOp} {key : Key}
    {value : Value} {seq : ℕ}
    (honly : ∀ p ∈ published, p = ⟨key, .put value seq⟩) :
    ¬ ListingReflects m₀ published firstTen [] [⟨key, .put value seq⟩] := by
  rintro ⟨m, hlist, -, hall⟩
  obtain ⟨p', hp', -, -, hlookup⟩ := hall _ (mem_singleton_self _)
  rw [honly p' hp'] at hlookup
  have hmem : key ∈ m.sortedKeys.filter firstTen.contains := by
    refine mem_filter.mpr ⟨VersionedMap.mem_sortedKeys.mpr ?_, by
      simp [KeyRange.contains, firstTen]⟩
    rw [hlookup]
    rfl
  have hlength := length_listKeys m firstTen
  have hpos := length_pos_of_mem hmem
  have hlimit : firstTen.limit = 10 := rfl
  rw [← hlist, length_nil, hlimit] at hlength
  omega

end Tree
end Holt
