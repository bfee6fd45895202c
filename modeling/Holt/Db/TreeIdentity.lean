import Holt.Db.TreeCatalog
import Holt.Lib.Table

/-!
# Tree ids and empty trees

In every run in which no image is restored inside a truncation test, a tree that `create_tree`
returns is empty, and an id is given to a second creation only after a crash has lost the record
of the first (`given_again_only_if_lost`).  So no id is given twice if no crash loses the record
of a creation that has returned (`tree_identity`).  A log that is not synced before the creation
returns may lose it, and its id is given again; and after a truncation that was tested while an
image was restored, the id of a tree may be given again whose records are still there
(`id_given_twice`).

What is on its way to the store, or there, is as of some prefix of the log that has been synced:
the next id of the catalog is exactly the one after that prefix, and every tree that has records
was created in it.  Replay from any mixture of such images over a longer prefix then gives the
next id after the longer one.
-/

namespace Holt
namespace Db
namespace Trees

open List Option Holt.Tree Transition

/-! ## What a log creates -/

def LogRecord.created : LogRecord → Option ℕ
  | .create _ treeId _ => some treeId
  | _ => none

/-- The ids of the trees that records create. -/
def creations (records : List LogRecord) : List ℕ := records.filterMap LogRecord.created

/-- The next id after records, from the one before. -/
def nextFrom (next : Option ℕ) (records : List LogRecord) : Option ℕ :=
  records.foldl (fun next r => match r with
    | .create _ _ next' => some next'
    | _ => next) next

/-- The next id after all records of a log. -/
def nextOf (records : List LogRecord) : Option ℕ := nextFrom none records

/-- A record is one that the DB writes behind a log. -/
def LogRecord.Fits (log : List LogRecord) : LogRecord → Prop
  | .create _ treeId next =>
    treeId = (nextOf log).getD firstUserTreeId ∧ nextAllocatedTreeId treeId = some next
  | .drop _ treeId => treeId ∈ creations log
  | .finalize _ => True
  | .write ops => ∀ op ∈ ops, op.1 ∈ creations log

/-- Each record is one that the DB writes behind those before it. -/
def Lawful (log : List LogRecord) : Prop :=
  ∀ pre r post, log = pre ++ r :: post → r.Fits pre

/-- The trees a record names. -/
def LogRecord.Within (ids : List ℕ) : LogRecord → Prop
  | .create _ treeId _ | .drop _ treeId => treeId ∈ ids
  | .finalize _ => True
  | .write ops => ∀ op ∈ ops, op.1 ∈ ids

lemma creations_append (log more : List LogRecord) :
    creations (log ++ more) = creations log ++ creations more := filterMap_append

lemma nextFrom_append (next : Option ℕ) (log more : List LogRecord) :
    nextFrom next (log ++ more) = nextFrom (nextFrom next log) more := foldl_append

lemma nextOf_append (log more : List LogRecord) :
    nextOf (log ++ more) = nextFrom (nextOf log) more := nextFrom_append ..

variable {records : List LogRecord}

/-- Only a creation moves the next id. -/
lemma nextFrom_of_none (h : ∀ r ∈ records, r.created = none) (next : Option ℕ) :
    nextFrom next records = next := by
  induction records generalizing next with
  | nil => rfl
  | cons r records ih =>
    have hr := h r mem_cons_self
    cases r with
    | create name treeId next' => simp [LogRecord.created] at hr
    | drop | finalize | write => exact ih (forall_mem_cons.mp h).2 next

/-- After a creation the next id before does not matter. -/
lemma nextFrom_of_some (h : ∃ r ∈ records, r.created ≠ none) (next next' : Option ℕ) :
    nextFrom next records = nextFrom next' records := by
  induction records generalizing next next' with
  | nil => simp at h
  | cons r records ih =>
    cases r with
    | create name treeId next'' => rfl
    | drop | finalize | write =>
      obtain ⟨r, hr, hsome⟩ := h
      rcases mem_cons.mp hr with rfl | hr
      · exact absurd rfl hsome
      · exact ih ⟨r, hr, hsome⟩ next next'

variable {log : List LogRecord} {j : ℕ}

variable {wal : List LogRecord} {k : ℕ} {r : LogRecord}

lemma mem_take_of_le (hjk : j ≤ k) (hr : r ∈ wal.take j) : r ∈ wal.take k := by
  rw [← Nat.min_eq_left hjk, ← take_take] at hr
  exact mem_of_mem_take hr

variable {old : List LogRecord}

/-- Replay from any earlier next id gives the next id after the whole prefix. -/
lemma nextFrom_take (hjk : j ≤ k) :
    nextFrom (nextOf (old ++ wal.take j)) (wal.take k) = nextOf (old ++ wal.take k) := by
  rw [nextOf_append old (wal.take k)]
  by_cases h : ∃ r ∈ wal.take k, r.created ≠ none
  · exact nextFrom_of_some h _ _
  · have hnone : ∀ r ∈ wal.take k, r.created = none := by
      intro r hr
      by_contra hne
      exact h ⟨r, hr, hne⟩
    rw [nextFrom_of_none hnone, nextFrom_of_none hnone, nextOf_append,
      nextFrom_of_none fun r hr => hnone r (mem_take_of_le hjk hr)]

lemma mem_creations_take (hjk : j ≤ k) {id : ℕ} (h : id ∈ creations (old ++ wal.take j)) :
    id ∈ creations (old ++ wal.take k) := by
  rw [creations_append, mem_append] at h ⊢
  refine h.imp_right fun hnew => ?_
  obtain ⟨r, hr, hid⟩ := mem_filterMap.mp hnew
  exact mem_filterMap.mpr ⟨r, mem_take_of_le hjk hr, hid⟩

lemma Lawful.of_append {more : List LogRecord} (h : Lawful (log ++ more)) : Lawful log := by
  intro pre r post heq
  exact h pre r (post ++ more) (by rw [heq, append_assoc, cons_append])

lemma Lawful.take (h : Lawful (old ++ wal)) (k : ℕ) : Lawful (old ++ wal.take k) := by
  rw [← take_append_drop k wal, ← append_assoc] at h
  exact h.of_append

/-- A log grows by the records that the DB writes. -/
lemma Lawful.snoc (h : Lawful log) (hr : r.Fits log) : Lawful (log ++ [r]) := by
  intro pre r' post heq
  rcases eq_nil_or_concat post with rfl | ⟨post', last, rfl⟩
  · obtain ⟨rfl, hlast⟩ := append_inj' heq rfl
    obtain rfl : r = r' := singleton_inj.mp hlast
    exact hr
  · have heq' : log ++ [r] = (pre ++ r' :: post') ++ [last] := by
      rw [heq]
      simp
    exact h pre r' post' (append_inj' heq' rfl).1

variable {treeId : ℕ}

/-- The allocator goes up, also past the id of the catalog. -/
lemma nextAllocated_lt {next : ℕ} (h : nextAllocatedTreeId treeId = some next) : treeId < next := by
  simp only [nextAllocatedTreeId, bind_eq_some_iff, ite_none_right_eq_some] at h
  obtain ⟨n, ⟨-, hn⟩, hnext⟩ := h
  cases hn
  by_cases hcatalog : treeId + 1 = catalogTreeId
  · rw [if_pos hcatalog] at hnext
    obtain ⟨-, hnext⟩ := ite_none_right_eq_some.mp hnext
    have := Option.some.inj hnext
    omega
  · rw [if_neg hcatalog] at hnext
    have := Option.some.inj hnext
    omega

/-- The next id is above the ids of all trees created so far. -/
lemma Lawful.creations_lt (h : Lawful log) {id : ℕ} (hid : id ∈ creations log) :
    id < (nextOf log).getD firstUserTreeId := by
  induction log using List.reverseRecOn with
  | nil => simp [creations] at hid
  | append_singleton log r ih =>
    have hold := ih h.of_append
    have hr : r.Fits log := h log r [] rfl
    rw [creations_append, mem_append] at hid
    rw [nextOf_append]
    cases r with
    | create name treeId next =>
      obtain ⟨htree, hnext⟩ := hr
      have hlt := nextAllocated_lt hnext
      simp only [nextFrom, foldl_cons, foldl_nil, getD_some]
      rcases hid with hid | hid
      · have := hold hid
        omega
      · obtain rfl : id = treeId := by simpa [creations, LogRecord.created] using hid
        exact hlt
    | drop | finalize | write =>
      rcases hid with hid | hid
      · exact hold hid
      · simp [creations, LogRecord.created] at hid

lemma LogRecord.Fits.within (h : r.Fits log) : r.Within (creations (log ++ [r])) := by
  cases r with
  | create name treeId next => simp [LogRecord.Within, creations, LogRecord.created]
  | drop name treeId =>
    rw [creations_append]
    exact mem_append_left _ h
  | finalize names => trivial
  | write ops =>
    intro op hop
    rw [creations_append]
    exact mem_append_left _ (h op hop)

variable {ids : List ℕ}

lemma LogRecord.Within.mono {ids' : List ℕ} (h : r.Within ids) (hsub : ∀ id ∈ ids, id ∈ ids') :
    r.Within ids' := by
  cases r with
  | create name treeId next | drop name treeId => exact hsub _ h
  | finalize names => trivial
  | write ops => exact fun op hop => hsub _ (h op hop)

/-- The records of a lawful log name only trees that it has created. -/
lemma Lawful.within (h : Lawful log) (hr : r ∈ log) : r.Within (creations log) := by
  obtain ⟨pre, post, rfl⟩ := append_of_mem hr
  refine (h pre r post rfl).within.mono fun id hid => ?_
  rw [show pre ++ r :: post = (pre ++ [r]) ++ post by simp, creations_append]
  exact mem_append_left _ hid

/-! ## Images -/

/-- An image names only the given trees, and only these have records in it. -/
def Image.Bounded (ids : List ℕ) : Image → Prop
  | .next _ => True
  | .entry _ e => ∀ x, e = some x → x.treeId ∈ ids
  | .root treeId content => ∀ m, content = some m → m ≠ ∅ → treeId ∈ ids

/-- An image as of a log. -/
def Image.AsOf (log : List LogRecord) (image : Image) : Prop :=
  image.Bounded (creations log) ∧ ∀ v, image = .next v → v = nextOf log

variable {image : Image}

lemma Image.Bounded.mono {ids' : List ℕ} (h : image.Bounded ids) (hsub : ∀ id ∈ ids, id ∈ ids') :
    image.Bounded ids' := by
  cases image with
  | next v => trivial
  | entry name e => exact fun x hx => hsub _ (h x hx)
  | root treeId content => exact fun m hm hne => hsub _ (h m hm hne)

lemma image_cell (f : Frames) (c : Cell) : (f.image c).cell = c := by
  cases c with
  | next => rfl
  | entry name => rfl
  | root treeId => rfl

lemma image_put_self (f : Frames) (image : Image) : (f.put image).image image.cell = image := by
  cases image with
  | next v => rfl
  | entry name e =>
    cases e with
    | none | some e => simp [Frames.put, Frames.image, Image.cell]
  | root treeId content => simp [Frames.put, Frames.image, Image.cell]

/-- A store of one cell leaves the others alone. -/
lemma image_put_of_ne (f : Frames) {c : Cell} (h : c ≠ image.cell) :
    (f.put image).image c = f.image c := by
  cases image with
  | next v =>
    cases c with
    | next => exact absurd rfl h
    | entry | root => rfl
  | entry name e =>
    cases c with
    | entry name' =>
      have hne : name' ≠ name := fun heq => h (by rw [heq]; rfl)
      cases e with
      | none => simp [Frames.put, Frames.image, Finmap.lookup_erase_ne hne]
      | some e => simp [Frames.put, Frames.image, Finmap.lookup_insert_of_ne _ hne]
    | next | root =>
      cases e with
      | none => rfl
      | some e => rfl
  | root treeId content =>
    cases c with
    | root treeId' =>
      have hne : treeId' ≠ treeId := fun heq => h (by rw [heq]; rfl)
      simp [Frames.put, Frames.image, hne]
    | next | entry => rfl

lemma image_put_cases (f : Frames) (image : Image) (c : Cell) :
    (f.put image).image c = f.image c ∨ (f.put image).image c = image := by
  by_cases h : c = image.cell
  · subst h
    exact .inr (image_put_self f image)
  · exact .inl (image_put_of_ne f h)

/-- What is read after writes is from before them, or from one of them. -/
lemma image_putAll_cases (f : Frames) (images : List Image) (c : Cell) :
    (f.putAll images).image c = f.image c ∨ (f.putAll images).image c ∈ images := by
  induction images generalizing f with
  | nil => exact .inl rfl
  | cons image images ih =>
    change ((f.put image).putAll images).image c = f.image c ∨
      ((f.put image).putAll images).image c ∈ image :: images
    rcases ih (f.put image) with hsame | hmem
    · rw [hsame]
      refine (image_put_cases f image c).imp_right fun heq => ?_
      rw [heq]
      exact mem_cons_self
    · exact .inr (mem_cons_of_mem _ hmem)

variable {f : Frames}

lemma next_of_image {g : Frames} (h : f.image .next = g.image .next) : f.next = g.next := by
  injection h

lemma next_of_eq {c : Cell} {v : Option ℕ} (h : f.image c = .next v) : f.next = v := by
  cases c with
  | next => injection h
  | entry | root => cases h

variable {images : List Image}

lemma putAll_next (h : ∀ image ∈ images, image.cell ≠ .next) : (f.putAll images).next = f.next := by
  rcases image_putAll_cases f images .next with hsame | hmem
  · exact next_of_image hsame
  · exact absurd (image_cell _ _) (h _ hmem)

/-! ## Replay -/

/-- All images of frames name only the given trees. -/
def Frames.Bounded (ids : List ℕ) (f : Frames) : Prop := ∀ c, (f.image c).Bounded ids

lemma Frames.Bounded.put (hf : f.Bounded ids) (himage : image.Bounded ids) :
    (f.put image).Bounded ids := by
  intro c
  rcases image_put_cases f image c with heq | heq
  · rw [heq]
    exact hf c
  · rw [heq]
    exact himage

lemma Frames.Bounded.putAll (hf : f.Bounded ids) (himages : ∀ image ∈ images, image.Bounded ids) :
    (f.putAll images).Bounded ids := by
  intro c
  rcases image_putAll_cases f images c with heq | hmem
  · rw [heq]
    exact hf c
  · exact himages _ hmem

/-- Replay brings no tree into the frames that the record does not name. -/
lemma Frames.Bounded.replay (hf : f.Bounded ids) (hr : r.Within ids) :
    (f.replay r).Bounded ids := by
  cases r with
  | create name treeId next =>
    refine hf.putAll fun image himage => ?_
    rcases mem_cons.mp himage with rfl | himage
    · exact fun x hx => Option.some.inj hx ▸ hr
    · rw [mem_singleton.mp himage]
      trivial
  | drop name treeId =>
    refine hf.putAll fun image himage => ?_
    rw [mem_singleton.mp himage]
    exact fun x hx => Option.some.inj hx ▸ hr
  | finalize names =>
    refine hf.putAll fun image himage => ?_
    obtain ⟨name, -, rfl⟩ := List.mem_map.mp himage
    exact fun x hx => by simp at hx
  | write ops =>
    -- an operation leaves records only in trees the record names
    have hops : ∀ ops : List (ℕ × ℕ × WalOp), (∀ op ∈ ops, op.1 ∈ ids) →
        ∀ f : Frames, f.Bounded ids → (ops.foldl Frames.writeOp f).Bounded ids := by
      intro ops
      induction ops with
      | nil => exact fun _ f hf => hf
      | cons op ops ih =>
        intro hmem f hf
        refine ih (forall_mem_cons.mp hmem).2 _ (hf.put ?_)
        exact fun m _ _ => hmem op mem_cons_self
    exact hops ops hr f hf

lemma Frames.Bounded.replayAll (hf : f.Bounded ids) (hrecords : ∀ r ∈ records, r.Within ids) :
    (f.replayAll records).Bounded ids := by
  induction records generalizing f with
  | nil => exact hf
  | cons r records ih =>
    exact ih (hf.replay (hrecords r mem_cons_self))
      fun r' hr' => hrecords r' (mem_cons_of_mem _ hr')

lemma next_writeOps (ops : List (ℕ × ℕ × WalOp)) (f : Frames) :
    (ops.foldl Frames.writeOp f).next = f.next := by
  induction ops generalizing f with
  | nil => rfl
  | cons op ops ih => exact ih (f.writeOp op)

lemma next_replay (f : Frames) (r : LogRecord) : (f.replay r).next = nextFrom f.next [r] := by
  cases r with
  | create name treeId next => rfl
  | drop name treeId => rfl
  | finalize names =>
    refine putAll_next fun image himage => ?_
    obtain ⟨name, -, rfl⟩ := List.mem_map.mp himage
    exact nofun
  | write ops => exact next_writeOps ops f

/-- Replay leaves the next id of the last creation. -/
lemma next_replayAll (f : Frames) (records : List LogRecord) :
    (f.replayAll records).next = nextFrom f.next records := by
  induction records generalizing f with
  | nil => rfl
  | cons r records ih =>
    rw [Frames.replayAll, foldl_cons]
    refine (ih (f.replay r)).trans ?_
    rw [next_replay, ← nextFrom_append]
    rfl

/-- A record that does not touch the next id creates no tree. -/
lemma created_of_cells (h : Cell.next ∉ r.cells) : r.created = none := by
  cases r with
  | create name treeId next =>
    exact absurd (by simp [LogRecord.cells, LogRecord.images, Image.cell]) h
  | drop | finalize | write => rfl

lemma mem_of_root_cells (hr : r.Within ids) (h : Cell.root treeId ∈ r.cells) : treeId ∈ ids := by
  cases r with
  | create name id next | drop name id | finalize names =>
    simp [LogRecord.cells, LogRecord.images, Image.cell] at h
  | write ops =>
    obtain ⟨op, hop, heq⟩ := List.mem_map.mp h
    injection heq with heq
    exact heq ▸ hr op hop

/-! ## The store and the log -/

/-- An image as of a prefix of the log that has been synced. -/
def TreesState.Durable (s : TreesState) (image : Image) : Prop :=
  ∃ j ≤ s.synced, image.AsOf (s.old ++ s.wal.take j)

/-- How the store, what is on its way there and what is in memory stand to the log. -/
structure LogInv (s : TreesState) : Prop where
  lawful : Lawful (s.old ++ s.wal)
  synced_le : s.synced ≤ s.wal.length
  live : ∀ c, (s.live.image c).AsOf (s.old ++ s.wal)
  disk : ∀ c, s.Durable (s.disk.image c)
  pending : ∀ image ∈ s.pending, s.Durable image
  captured : ∀ c ∈ s.captured, c.mark ≤ s.wal.length ∧ c.image.AsOf (s.old ++ s.wal.take c.mark)
  capturedRoots : ∀ c ∈ s.captured, ∀ treeId, c.image.cell = .root treeId →
    treeId ∈ creations (s.old ++ s.wal.take c.mark)
  dirtyRoots : ∀ treeId, .root treeId ∈ s.dirty → treeId ∈ creations (s.old ++ s.wal)
  /-- A current capture of the next id holds the next id. -/
  current : ∀ c ∈ s.captured, c.stale = false → ∀ v, c.image = .next v →
    v = nextOf (s.old ++ s.wal)
  /-- The next id is dirty, on its way to the store, or there. -/
  clean : .next ∉ s.dirty → (∃ c ∈ s.captured, c.image.cell = .next ∧ c.stale = false) ∨
    (s.disk.putAll s.pending).next = nextOf (s.old ++ s.wal)

variable {cells : List Cell} {captured : List Capture} {c : Capture}

/-- A captured image stays as it was, and is stale if its cell has been written. -/
lemma mem_outdate (h : c ∈ outdate cells captured) :
    ∃ c' ∈ captured, c.image = c'.image ∧ c.mark = c'.mark ∧
      (c.stale = false → c = c' ∧ c.image.cell ∉ cells) := by
  obtain ⟨c', hc', rfl⟩ := List.mem_map.mp h
  refine ⟨c', hc', ?_⟩
  by_cases hmem : c'.image.cell ∈ cells
  · simp [hmem]
  · simp [hmem]

lemma mem_outdate_of_notMem (h : c ∈ captured) (hnot : c.image.cell ∉ cells) :
    c ∈ outdate cells captured :=
  List.mem_map.mpr ⟨c, h, if_neg hnot⟩

variable {s : TreesState}

/-- A record is appended and applied in memory. -/
lemma LogInv.commit (h : LogInv s) (hr : r.Fits (s.old ++ s.wal)) : LogInv (s.commit r) := by
  have hlog : s.old ++ (s.wal ++ [r]) = (s.old ++ s.wal) ++ [r] := (append_assoc ..).symm
  have htake : ∀ j ≤ s.wal.length, (s.wal ++ [r]).take j = s.wal.take j := fun j hj =>
    take_append_of_le_length hj
  have hwithin : r.Within (creations (s.old ++ (s.wal ++ [r]))) := hlog ▸ hr.within
  have hsameNext : Cell.next ∉ r.cells →
      nextOf (s.old ++ s.wal) = nextOf (s.old ++ (s.wal ++ [r])) := by
    intro hcells
    have hnone : ∀ r' ∈ [r], r'.created = none := by simpa using created_of_cells hcells
    rw [hlog, nextOf_append (s.old ++ s.wal), nextFrom_of_none hnone]
  have hgrows : ∀ id ∈ creations (s.old ++ s.wal), id ∈ creations (s.old ++ (s.wal ++ [r])) := by
    intro id hid
    rw [hlog, creations_append]
    exact mem_append_left _ hid
  have hdurable : ∀ image, s.Durable image → (s.commit r).Durable image := by
    rintro image ⟨j, hj, himage⟩
    refine ⟨j, hj, ?_⟩
    change image.AsOf (s.old ++ (s.wal ++ [r]).take j)
    rw [htake j (hj.trans h.synced_le)]
    exact himage
  constructor
  case lawful => exact (congrArg Lawful hlog).mpr (h.lawful.snoc hr)
  case synced_le => exact h.synced_le.trans (by simp [TreesState.commit])
  case live =>
    have hbounded : (s.live.replay r).Bounded (creations (s.old ++ (s.wal ++ [r]))) :=
      Frames.Bounded.replay (fun c => (h.live c).1.mono hgrows) hwithin
    refine fun c => ⟨hbounded c, fun v hv => ?_⟩
    rw [← next_of_eq hv]
    refine (next_replay s.live r).trans ?_
    rw [(h.live .next).2 _ rfl, ← nextOf_append]
    exact congrArg nextOf hlog.symm
  case disk => exact fun c => hdurable _ (h.disk c)
  case pending => exact fun image himage => hdurable _ (h.pending image himage)
  case captured =>
    intro c hc
    obtain ⟨c', hc', himage, hmark, -⟩ := mem_outdate hc
    obtain ⟨hle, hasOf⟩ := h.captured c' hc'
    rw [himage, hmark]
    refine ⟨hle.trans (by simp [TreesState.commit]), ?_⟩
    change c'.image.AsOf (s.old ++ (s.wal ++ [r]).take c'.mark)
    rw [htake _ hle]
    exact hasOf
  case capturedRoots =>
    intro c hc treeId hcell
    obtain ⟨c', hc', himage, hmark, -⟩ := mem_outdate hc
    rw [himage] at hcell
    change treeId ∈ creations (s.old ++ (s.wal ++ [r]).take c.mark)
    rw [hmark, htake _ (h.captured c' hc').1]
    exact h.capturedRoots c' hc' treeId hcell
  case dirtyRoots =>
    intro treeId hmem
    rcases mem_append.mp hmem with hmem | hmem
    · exact mem_of_root_cells hwithin hmem
    · exact hgrows _ (h.dirtyRoots treeId hmem)
  case current =>
    intro c hc hstale v hv
    obtain ⟨c', hc', -, -, hsame⟩ := mem_outdate hc
    obtain ⟨rfl, hnot⟩ := hsame hstale
    rw [hv] at hnot
    exact (h.current c hc' hstale v hv).trans (hsameNext hnot)
  case clean =>
    intro hnot
    have hcells : Cell.next ∉ r.cells := fun hmem => hnot (mem_append_left _ hmem)
    rcases h.clean fun hmem => hnot (mem_append_right _ hmem) with ⟨c, hc, hcell, hstale⟩ | heq
    · exact .inl ⟨c, mem_outdate_of_notMem hc (hcell ▸ hcells), hcell, hstale⟩
    · exact .inr (heq.trans (hsameNext hcells))

lemma putAll_concat (f : Frames) (images : List Image) (image : Image) :
    f.putAll (images ++ [image]) = (f.putAll images).put image := by
  rw [Frames.putAll, foldl_append]
  rfl

lemma next_put (h : image.cell ≠ .next) :
    (f.put image).next = f.next := next_of_image (image_put_of_ne f (Ne.symm h))

/-- An empty or removed root goes to the store without a record. -/
lemma LogInv.submit (h : LogInv s) {content : Option VersionedMap}
    (hcontent : ∀ m, content = some m → m = ∅) : LogInv (s.submit (.root treeId content)) := by
  have hasOf : ∀ log, (Image.root treeId content).AsOf log := fun log =>
    ⟨fun m hm hne => absurd (hcontent m hm) hne, fun v hv => by cases hv⟩
  refine { h with
    live := ?live
    pending := Table.forall_mem_concat h.pending ⟨0, Nat.zero_le _, hasOf _⟩
    captured := ?captured
    capturedRoots := ?capturedRoots
    dirtyRoots := fun id hmem => h.dirtyRoots id (mem_filter.mp hmem).1
    current := ?current
    clean := ?clean }
  case live =>
    intro c
    rcases image_put_cases s.live (.root treeId content) c with heq | heq
    · rw [TreesState.submit, heq]
      exact h.live c
    · rw [TreesState.submit, heq]
      exact hasOf _
  case captured =>
    intro c hc
    obtain ⟨c', hc', himage, hmark, -⟩ := mem_outdate hc
    rw [himage, hmark]
    exact h.captured c' hc'
  case capturedRoots =>
    intro c hc id hcell
    obtain ⟨c', hc', himage, hmark, -⟩ := mem_outdate hc
    rw [himage] at hcell
    rw [hmark]
    exact h.capturedRoots c' hc' id hcell
  case current =>
    intro c hc hstale
    obtain ⟨c', hc', -, -, hsame⟩ := mem_outdate hc
    obtain ⟨rfl, -⟩ := hsame hstale
    exact h.current c hc' hstale
  case clean =>
    intro hnot
    have hdirty : Cell.next ∉ s.dirty := fun hmem =>
      hnot (mem_filter.mpr ⟨hmem, by simp [Image.cell]⟩)
    rcases h.clean hdirty with ⟨c, hc, hcell, hstale⟩ | heq
    · refine .inl ⟨c, mem_outdate_of_notMem hc ?_, hcell, hstale⟩
      rw [hcell]
      simp [Image.cell]
    · refine .inr (Eq.trans ?_ heq)
      change (s.disk.putAll (s.pending ++ [.root treeId content])).next = _
      rw [putAll_concat, next_put (by simp [Image.cell])]

variable {n : ℕ}

lemma LogInv.sync (h : LogInv s) (hle : s.synced ≤ n) (hn : n ≤ s.wal.length) :
    LogInv { s with synced := n } :=
  { h with
    synced_le := hn
    disk := fun c => (h.disk c).imp fun _ hj => ⟨hj.1.trans hle, hj.2⟩
    pending := fun image himage => (h.pending image himage).imp fun _ hj =>
      ⟨hj.1.trans hle, hj.2⟩ }

/-- The checkpoint takes images of dirty cells. -/
lemma LogInv.capture (h : LogInv s) (hcells : ∀ c ∈ cells, c ∈ s.dirty) : LogInv { s with
      dirty := s.dirty.filter (fun c => c ∉ cells)
      captured := s.captured ++ cells.map fun c => ⟨s.live.image c, s.wal.length, false⟩ } := by
  have hnew : ∀ {c : Capture},
      c ∈ s.captured ++ cells.map (fun c => ⟨s.live.image c, s.wal.length, false⟩) →
      c ∈ s.captured ∨ ∃ cell ∈ cells, c = ⟨s.live.image cell, s.wal.length, false⟩ := by
    intro c hc
    refine (mem_append.mp hc).imp_right fun hc => ?_
    obtain ⟨cell, hcell, rfl⟩ := List.mem_map.mp hc
    exact ⟨cell, hcell, rfl⟩
  refine { h with
    captured := ?captured
    capturedRoots := ?capturedRoots
    dirtyRoots := fun treeId hmem => h.dirtyRoots treeId (mem_filter.mp hmem).1
    current := ?current
    clean := ?clean }
  case captured =>
    intro c hc
    rcases hnew hc with hc | ⟨cell, -, rfl⟩
    · exact h.captured c hc
    · refine ⟨le_rfl, ?_⟩
      rw [take_length]
      exact h.live cell
  case capturedRoots =>
    intro c hc treeId hroot
    rcases hnew hc with hc | ⟨cell, hcell, rfl⟩
    · exact h.capturedRoots c hc treeId hroot
    · rw [image_cell] at hroot
      rw [take_length]
      exact h.dirtyRoots treeId (hroot ▸ hcells cell hcell)
  case current =>
    intro c hc hstale v hv
    rcases hnew hc with hc | ⟨cell, hcell, rfl⟩
    · exact h.current c hc hstale v hv
    · exact (h.live cell).2 v hv
  case clean =>
    intro hnot
    by_cases hdirty : Cell.next ∈ s.dirty
    · have hmem : Cell.next ∈ cells := by
        by_contra hout
        exact hnot (mem_filter.mpr ⟨hdirty, by simpa using hout⟩)
      exact .inl ⟨_, mem_append_right _ (List.mem_map.mpr ⟨.next, hmem, rfl⟩), rfl, rfl⟩
    · rcases h.clean hdirty with ⟨c, hc, hcell, hstale⟩ | heq
      · exact .inl ⟨c, mem_append_left _ hc, hcell, hstale⟩
      · exact .inr heq

variable {i : ℕ}

lemma mem_eraseIdx_of_ne {c' : Capture} (hi : captured[i]? = some c) (hc' : c' ∈ captured)
    (hne : c'.image.cell ≠ c.image.cell) : c' ∈ captured.eraseIdx i := by
  obtain ⟨k, hk⟩ := mem_iff_getElem?.mp hc'
  refine mem_eraseIdx_iff_getElem?.mpr ⟨k, ?_, hk⟩
  rintro rfl
  rw [hi] at hk
  exact hne (congrArg (fun c => c.image.cell) (Option.some.inj hk)).symm

/-- An image is stored once the log is synced up to it. -/
lemma LogInv.store (h : LogInv s) {mark : ℕ} (hi : s.captured[i]? = some ⟨image, mark, false⟩)
    (hmark : mark ≤ s.synced) :
    LogInv { s with pending := s.pending ++ [image], captured := s.captured.eraseIdx i } := by
  have hmem := mem_of_getElem? hi
  refine { h with
    pending := Table.forall_mem_concat h.pending ⟨mark, hmark, (h.captured _ hmem).2⟩
    captured := fun c hc => h.captured c (mem_of_mem_eraseIdx hc)
    capturedRoots := fun c hc => h.capturedRoots c (mem_of_mem_eraseIdx hc)
    current := fun c hc => h.current c (mem_of_mem_eraseIdx hc)
    clean := fun hnot => ?_ }
  rw [putAll_concat]
  by_cases hcell : image.cell = .next
  · right
    cases image with
    | next v => exact h.current _ hmem rfl v rfl
    | entry | root => simp [Image.cell] at hcell
  · rw [next_put hcell]
    refine (h.clean hnot).imp_left fun ⟨c, hc, hnext, hstale⟩ => ⟨c, ?_, hnext, hstale⟩
    exact mem_eraseIdx_of_ne hi hc (by rw [hnext]; exact Ne.symm hcell)

lemma LogInv.storePart (h : LogInv s) {mark : ℕ} {stale : Bool} {whole : Option VersionedMap}
    (hi : s.captured[i]? = some ⟨.root treeId whole, mark, stale⟩) (hmark : mark ≤ s.synced)
    (content : VersionedMap) :
    LogInv { s with pending := s.pending ++ [.root treeId (some content)] } :=
  { h with
    pending := Table.forall_mem_concat h.pending ⟨mark, hmark, fun m _ _ =>
      h.capturedRoots _ (mem_of_getElem? hi) treeId rfl, nofun⟩
    clean := by
      intro hnot
      rw [putAll_concat, next_put (by simp [Image.cell])]
      exact h.clean hnot }

/-- An image is given up, and its cell is dirty again. -/
lemma LogInv.giveUp (h : LogInv s) (hi : s.captured[i]? = some c) :
    LogInv { s with dirty := c.image.cell :: s.dirty, captured := s.captured.eraseIdx i } := by
  have hmem := mem_of_getElem? hi
  refine { h with
    captured := fun c' hc' => h.captured c' (mem_of_mem_eraseIdx hc')
    capturedRoots := fun c' hc' => h.capturedRoots c' (mem_of_mem_eraseIdx hc')
    dirtyRoots := ?dirtyRoots
    current := fun c' hc' => h.current c' (mem_of_mem_eraseIdx hc')
    clean := ?clean }
  case dirtyRoots =>
    intro treeId hdirty
    rcases mem_cons.mp hdirty with heq | hdirty
    · have hcreated := h.capturedRoots c hmem treeId heq.symm
      have hfull := mem_creations_take (h.captured c hmem).1 hcreated
      rwa [take_length] at hfull
    · exact h.dirtyRoots treeId hdirty
  case clean =>
    intro hnot
    have hcell : Cell.next ≠ c.image.cell := fun heq => hnot (heq ▸ mem_cons_self)
    refine (h.clean fun hdirty => hnot (mem_cons_of_mem _ hdirty)).imp_left ?_
    rintro ⟨c', hc', hnext, hstale⟩
    exact ⟨c', mem_eraseIdx_of_ne hi hc' (hnext ▸ hcell), hnext, hstale⟩

lemma LogInv.durable_putAll (h : LogInv s) (hsub : ∀ image ∈ images, image ∈ s.pending) (c : Cell) :
    s.Durable ((s.disk.putAll images).image c) := by
  rcases image_putAll_cases s.disk images c with heq | hmem
  · rw [heq]
    exact h.disk c
  · exact h.pending _ (hsub _ hmem)

lemma LogInv.flush (h : LogInv s) :
    LogInv { s with disk := s.disk.putAll s.pending, pending := [] } :=
  { h with
    disk := h.durable_putAll fun _ himage => himage
    pending := by simp
    clean := h.clean }

/-- A truncation of a log whose effects are all in the store. -/
lemma LogInv.truncate (h : LogInv s) (hdirty : s.dirty = []) (hcaptured : s.captured = [])
    (hpending : s.pending = []) :
    LogInv { s with
      old := s.old ++ s.wal
      wal := []
      synced := 0
      testing := false
      counted := false } := by
  have hlog : (s.old ++ s.wal) ++ [] = s.old ++ s.wal := append_nil _
  have hnext : s.disk.next = nextOf (s.old ++ s.wal) := by
    rcases h.clean (by simp [hdirty]) with ⟨c, hc, -⟩ | heq
    · simp [hcaptured] at hc
    · rwa [hpending] at heq
  constructor
  case lawful => exact (congrArg Lawful hlog).mpr h.lawful
  case synced_le => exact le_rfl
  case live => exact fun c => (congrArg (fun log => (s.live.image c).AsOf log) hlog).mpr (h.live c)
  case disk =>
    intro c
    refine ⟨0, le_rfl, ?_⟩
    change (s.disk.image c).AsOf ((s.old ++ s.wal) ++ [])
    rw [hlog]
    obtain ⟨j, hj, hasOf⟩ := h.disk c
    refine ⟨hasOf.1.mono fun id hid => ?_, fun v hv => ?_⟩
    · have hfull := mem_creations_take (hj.trans h.synced_le) hid
      rwa [take_length] at hfull
    · exact (next_of_eq hv).symm.trans hnext
  case pending => simp [hpending]
  case captured => simp [hcaptured]
  case capturedRoots => simp [hcaptured]
  case dirtyRoots => simp [hdirty]
  case current => simp [hcaptured]
  case clean =>
    intro _
    refine .inr ?_
    change (s.disk.putAll s.pending).next = nextOf ((s.old ++ s.wal) ++ [])
    rw [hpending, hlog]
    exact hnext

variable {keep : List Bool}

lemma mem_of_mem_kept {pending : List Image} (h : image ∈ kept pending keep) : image ∈ pending := by
  obtain ⟨p, hp, rfl⟩ := List.mem_map.mp h
  exact (of_mem_zip (mem_filter.mp hp).1).1

lemma image_ensureRoots (f : Frames) (records : List LogRecord) (c : Cell) :
    (f.ensureRoots records).image c = f.image c ∨
      ∃ treeId, (f.ensureRoots records).image c = .root treeId (some ∅) := by
  cases c with
  | next | entry name => exact .inl rfl
  | root treeId =>
    simp only [Frames.image, Frames.ensureRoots]
    split
    · exact .inr ⟨treeId, rfl⟩
    · exact .inl rfl

variable {s' : TreesState}

/-- A crash keeps a prefix of the log and some of the images that were on their way. -/
lemma LogInv.crash (h : LogInv s) (hle : s.synced ≤ n) (hn : n ≤ s.wal.length)
    (hold : s'.old = s.old) (hwal : s'.wal = s.wal.take n) (hsynced : s'.synced = n)
    (hdisk : s'.disk = (s.disk.putAll (kept s.pending keep)).ensureRoots (s.wal.take n))
    (hlive : s'.live = s'.disk.replayAll (s.wal.take n)) (hpending : s'.pending = [])
    (hcaptured : s'.captured = []) (hdirty : s'.dirty = (s.wal.take n).flatMap LogRecord.cells) :
    LogInv s' := by
  have hlen : (s.wal.take n).length = n := length_take_of_le hn
  have htake : ∀ j ≤ n, (s.wal.take n).take j = s.wal.take j := fun j hj => by
    rw [take_take, Nat.min_eq_left hj]
  have hlawful : Lawful (s.old ++ s.wal.take n) := h.lawful.take n
  have hdurable : ∀ c, ∃ j ≤ n, (s'.disk.image c).AsOf (s.old ++ s.wal.take j) := by
    intro c
    rw [hdisk]
    rcases image_ensureRoots (s.disk.putAll (kept s.pending keep)) (s.wal.take n) c with
      heq | ⟨treeId, heq⟩
    · rw [heq]
      obtain ⟨j, hj, hasOf⟩ := h.durable_putAll (fun _ => mem_of_mem_kept) c
      exact ⟨j, hj.trans hle, hasOf⟩
    · rw [heq]
      refine ⟨0, Nat.zero_le _, fun m hm hne => ?_, fun v hv => by cases hv⟩
      exact absurd (Option.some.inj hm).symm hne
  have hbounded : s'.disk.Bounded (creations (s.old ++ s.wal.take n)) := by
    intro c
    obtain ⟨j, hj, hasOf⟩ := hdurable c
    exact hasOf.1.mono fun id hid => mem_creations_take hj hid
  have hdiskNext : ∃ j ≤ n, s'.disk.next = nextOf (s.old ++ s.wal.take j) := by
    obtain ⟨j, hj, hasOf⟩ := hdurable .next
    exact ⟨j, hj, hasOf.2 _ rfl⟩
  have hwithin : ∀ r ∈ s.wal.take n, r.Within (creations (s.old ++ s.wal.take n)) := fun r hr =>
    hlawful.within (mem_append_right _ hr)
  constructor
  case lawful => rwa [hold, hwal]
  case synced_le => rw [hsynced, hwal, hlen]
  case live =>
    rw [hold, hwal, hlive]
    refine fun c => ⟨(hbounded.replayAll hwithin) c, fun v hv => ?_⟩
    obtain ⟨j, hj, hnext⟩ := hdiskNext
    rw [← next_of_eq hv, next_replayAll, hnext, nextFrom_take hj]
  case disk =>
    intro c
    obtain ⟨j, hj, hasOf⟩ := hdurable c
    refine ⟨j, hsynced ▸ hj, ?_⟩
    rw [hold, hwal, htake j hj]
    exact hasOf
  case pending => simp [hpending]
  case captured => simp [hcaptured]
  case capturedRoots => simp [hcaptured]
  case dirtyRoots =>
    intro treeId hmem
    rw [hdirty] at hmem
    obtain ⟨r, hr, hcell⟩ := mem_flatMap.mp hmem
    rw [hold, hwal]
    exact mem_of_root_cells (hwithin r hr) hcell
  case current => simp [hcaptured]
  case clean =>
    intro hnot
    -- no record that is left creates a tree
    have hnone : ∀ r ∈ s.wal.take n, r.created = none := by
      intro r hr
      refine created_of_cells fun hcell => hnot ?_
      rw [hdirty]
      exact mem_flatMap.mpr ⟨r, hr, hcell⟩
    obtain ⟨j, hj, hnext⟩ := hdiskNext
    refine .inr ?_
    rw [hpending, hold, hwal]
    refine Eq.trans hnext ?_
    rw [← nextFrom_take hj, nextFrom_of_none hnone]

/-! ## Creations -/

/-- What the creations that have returned, and the one in progress, rest on. -/
structure TreesInv (s : TreesState) : Prop where
  log : LogInv s
  tested : s.testing = true → s.creating = none ∧ (s.counted = true → s.dirty = [])
  counted : s.counted = true → s.testing = true
  creating : ∀ c, s.creating = some c →
    c.treeId = (nextOf (s.old ++ s.wal)).getD firstUserTreeId ∧ s.live.roots c.treeId = some ∅
  position : ∀ g ∈ s.given, ∀ p, g.position = some p →
    ∃ name next, (s.old ++ s.wal)[p]? = some (.create name g.treeId next)
  lost : s.given.Pairwise fun g g' => g.treeId = g'.treeId → g.position = none
  empty : ∀ g ∈ s.given, g.content = some ∅

lemma asOf_fresh (c : Cell) : (Frames.empty.image c).AsOf [] := by
  cases c with
  | next => exact ⟨trivial, fun v hv => by injection hv with hv; exact hv.symm⟩
  | entry name => exact ⟨fun x hx => by simp [Frames.empty] at hx, nofun⟩
  | root treeId => exact ⟨fun m hm => by simp [Frames.empty] at hm, nofun⟩

lemma treesInv_fresh : TreesInv TreesState.fresh where
  log := {
    lawful := fun pre r post h => by simp [TreesState.fresh] at h
    synced_le := le_rfl
    live := asOf_fresh
    disk := fun c => ⟨0, le_rfl, asOf_fresh c⟩
    pending := by simp [TreesState.fresh]
    captured := by simp [TreesState.fresh]
    capturedRoots := by simp [TreesState.fresh]
    dirtyRoots := by simp [TreesState.fresh]
    current := by simp [TreesState.fresh]
    clean := fun _ => .inr rfl }
  tested := by simp [TreesState.fresh]
  counted := by simp [TreesState.fresh]
  creating := by simp [TreesState.fresh]
  position := by simp [TreesState.fresh]
  lost := List.Pairwise.nil
  empty := by simp [TreesState.fresh]

lemma quiet_inv (h : s.quiet = true) :
    s.creating = none ∧ s.testing = false ∧ s.failedClosed = false := by
  simpa [TreesState.quiet, and_assoc] using h

variable (h : TreesInv s)
include h

/-- A creation whose record is in the log is one of its creations. -/
lemma TreesInv.mem_creations {g : Given} (hg : g ∈ s.given) {p : ℕ} (hp : g.position = some p) :
    g.treeId ∈ creations (s.old ++ s.wal) := by
  obtain ⟨name, next, hlog⟩ := h.position g hg p hp
  exact mem_filterMap.mpr ⟨_, mem_of_getElem? hlog, rfl⟩

lemma position_append (r : LogRecord) : ∀ g ∈ s.given, ∀ p, g.position = some p →
      ∃ name next, (s.old ++ (s.wal ++ [r]))[p]? = some (.create name g.treeId next) := by
  intro g hg p hp
  obtain ⟨name, next, hlog⟩ := h.position g hg p hp
  refine ⟨name, next, ?_⟩
  rw [← append_assoc, getElem?_append_left (List.getElem?_eq_some_iff.mp hlog).1]
  exact hlog

/-- A record that is committed outside of a creation and of a test. -/
lemma TreesInv.commit (hquiet : s.quiet = true) (hr : r.Fits (s.old ++ s.wal)) :
    TreesInv (s.commit r) := by
  obtain ⟨hcreating, htesting, -⟩ := quiet_inv hquiet
  exact { h with
    log := h.log.commit hr
    tested := fun htest => nomatch htesting.symm.trans htest
    creating := fun c hc => nomatch hcreating.symm.trans hc
    position := position_append h r }

lemma TreesInv.submit (hquiet : s.quiet = true) {content : Option VersionedMap}
    (hcontent : ∀ m, content = some m → m = ∅) : TreesInv (s.submit (.root treeId content)) := by
  obtain ⟨hcreating, htesting, -⟩ := quiet_inv hquiet
  exact { h with
    log := h.log.submit hcontent
    tested := fun htest => nomatch htesting.symm.trans htest
    creating := fun c hc => nomatch hcreating.symm.trans hc }

/-- Nothing is stored for a tree that has not been created. -/
lemma TreesInv.next_root {m : VersionedMap}
    (hroot : s.live.roots (s.live.next.getD firstUserTreeId) = some m) : m = ∅ := by
  by_contra hne
  have hnext : s.live.next = nextOf (s.old ++ s.wal) := (h.log.live .next).2 _ rfl
  have hcreated := (h.log.live (.root (s.live.next.getD firstUserTreeId))).1 m hroot hne
  have hlt := h.log.lawful.creations_lt hcreated
  rw [hnext] at hlt
  exact lt_irrefl _ hlt

omit h in
/-- A batch writes to trees that are live. -/
lemma resolve_mem {entries : Finmap (fun _ : Key => CatalogEntry)} {ops : List (Key × ℕ × WalOp)}
    {resolved : List (ℕ × ℕ × WalOp)} (h : resolve entries ops = some resolved) :
    ∀ op ∈ resolved, ∃ name, entries.lookup name = some ⟨op.1, .live⟩ := by
  induction ops generalizing resolved with
  | nil =>
    obtain rfl : [] = resolved := by simpa [resolve] using h
    simp
  | cons op ops ih =>
    simp only [resolve, mapM_cons, bind_eq_bind, bind_eq_some_iff,
      Option.pure_def] at h
    obtain ⟨first, hfirst, rest, hrest, heq⟩ := h
    cases heq
    intro op' hop'
    rcases mem_cons.mp hop' with rfl | hop'
    · split at hfirst
      case h_1 treeId hlookup =>
        cases hfirst
        exact ⟨op.1, hlookup⟩
      case h_2 => exact absurd hfirst nofun
    · exact ih hrest op' hop'

lemma TreesInv.entry_created {name : Key} {e : CatalogEntry}
    (hlookup : s.live.entries.lookup name = some e) : e.treeId ∈ creations (s.old ++ s.wal) :=
  (h.log.live (.entry name)).1 e hlookup

/-- `create_tree` returns. -/
lemma TreesInv.publish {name : Key} {next : ℕ} (hcreating : s.creating = some ⟨name, treeId, true⟩)
    (hnext : nextAllocatedTreeId treeId = some next) :
    TreesInv { s.commit (.create name treeId next) with
      creating := none
      given := s.given ++ [⟨treeId, some (s.old.length + s.wal.length),
        (s.commit (.create name treeId next)).live.roots treeId⟩] } := by
  obtain ⟨htree, hroot⟩ := h.creating _ hcreating
  have hfits : (LogRecord.create name treeId next).Fits (s.old ++ s.wal) := ⟨htree, hnext⟩
  have hlog := h.log.commit hfits
  refine ⟨{ hlog with }, fun htest => ?_, h.counted, nofun, fun g hg p hp => ?_, ?_,
    fun g hg => ?_⟩
  · exact absurd (hcreating.symm.trans (h.tested htest).1) nofun
  · rcases Table.mem_concat hg with hg | rfl
    · exact position_append h _ g hg p hp
    · cases hp
      refine ⟨name, next, ?_⟩
      change (s.old ++ (s.wal ++ [LogRecord.create name treeId next]))[_]? = _
      rw [← append_assoc, ← length_append]
      exact getElem?_concat_length
  · refine pairwise_append.mpr ⟨h.lost, pairwise_singleton _ _, fun g hg g' hg' heq => ?_⟩
    obtain rfl := mem_singleton.mp hg'
    -- an id that is still in the log is below the next one
    by_contra hne
    obtain ⟨p, hp⟩ := ne_none_iff_exists'.mp hne
    have hlt := h.log.lawful.creations_lt (h.mem_creations hg hp)
    rw [heq, ← htree] at hlt
    exact lt_irrefl _ hlt
  · rcases Table.mem_concat hg with hg | rfl
    · exact h.empty g hg
    · exact hroot

lemma TreesInv.endCreation (failed : Bool) :
    TreesInv { s with creating := none, failedClosed := failed } :=
  { h with
    log := { h.log with }
    tested := fun htest => ⟨rfl, (h.tested htest).2⟩
    creating := nofun }

variable {a : TreesAction}

lemma treesInv_callStep (hstep : callStep s a = some s') : TreesInv s' := by
  cases a with
  | create name =>
    simp only [callStep] at hstep
    obtain ⟨⟨hquiet, -, hname, -⟩, rfl⟩ := guard_eq_some.mp hstep
    have hnext : s.live.next = nextOf (s.old ++ s.wal) := (h.log.live .next).2 _ rfl
    have htested : ∀ {P : Prop}, s.testing = true → P := fun htest =>
      nomatch (quiet_inv hquiet).2.1.symm.trans htest
    by_cases hroot : s.live.roots (s.live.next.getD firstUserTreeId) = none
    · simp only [if_pos hroot]
      have hsub := @TreesInv.submit (s.live.next.getD firstUserTreeId) s h hquiet (some ∅)
        fun m hm => (Option.some.inj hm).symm
      refine { hsub with log := { hsub.log with }, tested := htested, creating := fun c hc => ?_ }
      cases hc
      exact ⟨congrArg (fun v => v.getD firstUserTreeId) hnext, by
        simp [TreesState.submit, Frames.put]⟩
    · simp only [if_neg hroot]
      refine { h with log := { h.log with }, tested := htested, creating := fun c hc => ?_ }
      cases hc
      obtain ⟨m, hm⟩ := ne_none_iff_exists'.mp hroot
      exact ⟨congrArg (fun v => v.getD firstUserTreeId) hnext, h.next_root hm ▸ hm⟩
  | createFlush =>
    obtain ⟨c, hc, rfl⟩ := map_eq_some_iff.mp hstep
    refine { h with
      log := { h.log.flush with }
      tested := fun htest => nomatch hc.symm.trans (h.tested htest).1
      creating := fun c' hc' => ?_ }
    cases hc'
    exact h.creating c hc
  | createPublish =>
    simp only [callStep] at hstep
    split at hstep <;> try contradiction
    next name treeId hcreating =>
      obtain ⟨next, hnext, rfl⟩ := map_eq_some_iff.mp hstep
      exact h.publish hcreating hnext
  | createFail =>
    obtain ⟨-, rfl⟩ := guard_eq_some.mp hstep
    exact h.endCreation _
  | write ops =>
    obtain ⟨hquiet, hs'⟩ := ite_none_right_eq_some.mp hstep
    obtain ⟨resolved, hresolved, rfl⟩ := map_eq_some_iff.mp hs'
    refine h.commit hquiet fun op hop => ?_
    obtain ⟨name, hlookup⟩ := resolve_mem hresolved op hop
    exact h.entry_created hlookup
  | drop name =>
    simp only [callStep] at hstep
    split at hstep <;> try contradiction
    next treeId hlookup =>
      obtain ⟨hquiet, rfl⟩ := guard_eq_some.mp hstep
      exact h.commit hquiet (h.entry_created hlookup)
  | sweep treeId =>
    obtain ⟨⟨hquiet, -⟩, rfl⟩ := guard_eq_some.mp hstep
    exact h.submit hquiet nofun
  | finalize names =>
    obtain ⟨⟨hquiet, -⟩, rfl⟩ := guard_eq_some.mp hstep
    exact h.commit hquiet trivial
  | failClosed =>
    cases hstep
    exact h.endCreation _
  | sync | capture | store | storePart | giveUp | flush | beginTest | testDirty | endTest
  | truncate | crash => exact absurd hstep nofun

lemma treesInv_checkpointStep (hrestores : restoresOutsideTests s a = true)
    (hstep : checkpointStep s a = some s') : TreesInv s' := by
  cases a with
  | sync n =>
    obtain ⟨⟨hle, hn⟩, rfl⟩ := guard_eq_some.mp hstep
    exact { h with log := h.log.sync hle hn }
  | capture cells =>
    obtain ⟨⟨hquiet, hcells⟩, rfl⟩ := guard_eq_some.mp hstep
    exact { h with
      log := h.log.capture hcells
      tested := fun htest => nomatch (quiet_inv hquiet).2.1.symm.trans htest }
  | store i =>
    simp only [checkpointStep] at hstep
    split at hstep <;> try contradiction
    next image mark hi =>
      obtain ⟨hmark, rfl⟩ := guard_eq_some.mp hstep
      exact { h with log := h.log.store hi hmark }
  | storePart i content =>
    simp only [checkpointStep] at hstep
    split at hstep <;> try contradiction
    next treeId whole mark hi =>
      obtain ⟨hmark, rfl⟩ := guard_eq_some.mp hstep
      exact { h with log := h.log.storePart hi hmark content }
  | giveUp i =>
    obtain ⟨c, hi, rfl⟩ := map_eq_some_iff.mp hstep
    have htesting : s.testing = false := by simpa [restoresOutsideTests] using hrestores
    exact { h with
      log := h.log.giveUp hi
      tested := fun htest => nomatch htesting.symm.trans htest }
  | flush =>
    cases hstep
    exact { h with log := h.log.flush }
  | beginTest =>
    obtain ⟨hquiet, rfl⟩ := guard_eq_some.mp hstep
    exact { h with
      log := { h.log with }
      tested := fun _ => ⟨(quiet_inv hquiet).1, nofun⟩
      counted := nofun }
  | testDirty =>
    obtain ⟨⟨htest, hdirty⟩, rfl⟩ := guard_eq_some.mp hstep
    exact { h with
      log := { h.log with }
      tested := fun _ => ⟨(h.tested htest).1, fun _ => hdirty⟩
      counted := fun _ => htest }
  | endTest =>
    obtain ⟨-, rfl⟩ := guard_eq_some.mp hstep
    exact { h with log := { h.log with }, tested := nofun, counted := nofun }
  | truncate =>
    obtain ⟨⟨hcounted, hcaptured, hpending⟩, rfl⟩ := guard_eq_some.mp hstep
    obtain ⟨hcreating, hdirty⟩ := h.tested (h.counted hcounted)
    have hlog : (s.old ++ s.wal) ++ [] = s.old ++ s.wal := append_nil _
    refine ⟨h.log.truncate (hdirty hcounted) (by simpa using hcaptured) (by simpa using hpending),
      nofun, nofun, fun c hc => ?_, fun g hg p hp => ?_, h.lost, h.empty⟩
    · exact absurd (hcreating.symm.trans hc) nofun
    · obtain ⟨name, next, hrecord⟩ := h.position g hg p hp
      exact ⟨name, next, (congrArg (fun log => log[p]?) hlog).trans hrecord⟩
  | create | createFlush | createPublish | createFail | write | drop | sweep | finalize | failClosed
  | crash => exact absurd hstep nofun

lemma treesInv_reopen (hstep : reopen s n keep = some s') : TreesInv s' := by
  obtain ⟨⟨⟨hle, hn⟩, -⟩, rfl⟩ := guard_eq_some.mp hstep
  refine ⟨h.log.crash hle hn rfl rfl rfl rfl rfl rfl rfl rfl, nofun, nofun, nofun,
    fun g hg p hp => ?_, ?_, fun g hg => ?_⟩
  · obtain ⟨g₀, hg₀, rfl⟩ := List.mem_map.mp hg
    obtain ⟨hp₀, hlt⟩ := filter_eq_some_iff.mp hp
    obtain ⟨name, next, hrecord⟩ := h.position g₀ hg₀ p hp₀
    refine ⟨name, next, ?_⟩
    have hlog : s.old ++ s.wal.take n = (s.old ++ s.wal).take (s.old.length + n) := by
      rw [take_length_add_append]
    change (s.old ++ s.wal.take n)[p]? = _
    rw [hlog, getElem?_take_of_lt (of_decide_eq_true hlt)]
    exact hrecord
  · refine h.lost.map _ fun g g' hlost heq => ?_
    simp [hlost heq]
  · obtain ⟨g₀, hg₀, rfl⟩ := List.mem_map.mp hg
    exact h.empty g₀ hg₀

/-- The step lemma. -/
lemma treesInv_step (hrestores : restoresOutsideTests s a = true)
    (hstep : treesStep s a = some s') : TreesInv s' := by
  unfold treesStep at hstep
  split at hstep
  · exact treesInv_reopen h hstep
  · rcases or_eq_some_iff.mp hstep with hcall | ⟨-, hcheckpoint⟩
    · exact treesInv_callStep h hcall
    · exact treesInv_checkpointStep h hrestores hcheckpoint

/-! ## Every run -/

omit h

/-- As long as no image is restored inside a truncation test, every tree that `create_tree`
returns is empty, and an id is given again only after a crash has lost the record of the creation
it was given to before. -/
theorem given_again_only_if_lost {actions : List TreesAction}
    (hrun : Path treesStep (fun s a => restoresOutsideTests s a = true) TreesState.fresh
      actions s) :
    (∀ g ∈ s.given, g.content = some ∅) ∧
      s.given.Pairwise fun g g' => g.treeId = g'.treeId → g.position = none := by
  have h : TreesInv s := hrun.invariant
    (fun _ _ _ hinv hrestores hstep => treesInv_step hinv hrestores hstep) treesInv_fresh
  exact ⟨h.empty, h.lost⟩

lemma given_checkpointStep (hstep : checkpointStep s a = some s') : s'.given = s.given := by
  cases a <;> grind [checkpointStep]

/-- Only a creation that returns adds to what has been given. -/
lemma given_callStep (hstep : callStep s a = some s') :
    s'.given = s.given ∨ ∃ g, s'.given = s.given ++ [g] ∧ g.position.isSome := by
  cases a with
  | createFlush =>
    obtain ⟨c, -, rfl⟩ := map_eq_some_iff.mp hstep
    exact .inl rfl
  | createPublish =>
    simp only [callStep] at hstep
    split at hstep
    · obtain ⟨next, -, rfl⟩ := map_eq_some_iff.mp hstep
      exact .inr ⟨_, rfl, rfl⟩
    · exact absurd hstep nofun
  | write ops =>
    obtain ⟨-, hs'⟩ := ite_none_right_eq_some.mp hstep
    obtain ⟨resolved, -, rfl⟩ := map_eq_some_iff.mp hs'
    exact .inl rfl
  | _ => grind [callStep, TreesState.commit, TreesState.submit]

/-- What has returned is still in the log. -/
def Remembered (s : TreesState) : Prop := ∀ g ∈ s.given, g.position.isSome

/-- A step that cuts no creation off the log keeps them all. -/
lemma remembered_step (h : Remembered s) (hkeeps : keepsCreations s a = true)
    (hstep : treesStep s a = some s') : Remembered s' := by
  unfold treesStep at hstep
  split at hstep
  case h_1 n keep =>
    obtain ⟨-, rfl⟩ := guard_eq_some.mp hstep
    intro g hg
    obtain ⟨g₀, hg₀, rfl⟩ := List.mem_map.mp hg
    obtain ⟨p, hp⟩ := isSome_iff_exists.mp (h g₀ hg₀)
    have hkept := List.all_eq_true.mp hkeeps g₀ hg₀
    rw [hp] at hkept
    simp only [hp, Option.filter, all_some] at hkept ⊢
    simp [hkept]
  case h_2 hnot =>
    have hgiven : s'.given = s.given ∨ ∃ g, s'.given = s.given ++ [g] ∧ g.position.isSome := by
      rcases or_eq_some_iff.mp hstep with hcall | ⟨-, hcheckpoint⟩
      · exact given_callStep hcall
      · exact .inl (given_checkpointStep hcheckpoint)
    rcases hgiven with hsame | ⟨g, hnew, hg⟩
    · exact fun g hg => h g (hsame ▸ hg)
    · intro g' hg'
      rw [hnew] at hg'
      rcases Table.mem_concat hg' with hg' | rfl
      · exact h g' hg'
      · exact hg

/-- Every image is restored outside of truncation tests, and every crash leaves the records of
the creations that have returned. -/
abbrev Undisturbed (s : TreesState) (a : TreesAction) : Prop :=
  restoresOutsideTests s a = true ∧ keepsCreations s a = true

/-- Over every such run of creations, writes, drops, sweeps, finalizations, checkpoints, crashes
and reopens, no id is given to two creations, and every tree that `create_tree` returns is
empty. -/
theorem tree_identity {s : TreesState} {actions : List TreesAction}
    (hrun : Path treesStep Undisturbed TreesState.fresh actions s) :
    (s.given.map Given.treeId).Nodup ∧ ∀ g ∈ s.given, g.content = some ∅ := by
  obtain ⟨hempty, hlost⟩ := given_again_only_if_lost (hrun.mono fun _ _ h => h.1)
  have hremembered : Remembered s := hrun.invariant
    (fun _ _ _ h hguard hstep => remembered_step h hguard.2 hstep)
    nofun
  refine ⟨?_, hempty⟩
  rw [List.Nodup, pairwise_map]
  refine hlost.imp_of_mem fun hg _ hlost heq => ?_
  have hsome := hremembered _ hg
  rw [hlost heq] at hsome
  exact absurd hsome nofun

/-- A tree is created, written, dropped, swept and finalized, and one of the same name is created
after a checkpoint and a crash. -/
def recreated : List TreesAction :=
  [.create [120], .createFlush, .createPublish, .write [([120], 1, .insert [107] [1])],
    .capture [.root 1, .entry [120], .next], .sync 2, .store 0, .drop [120], .sync 3, .sweep 1,
    .store 1, .giveUp 0, .flush, .finalize [[120]], .sync 4, .crash 4 [],
    .create [120], .createFlush, .createPublish]

theorem tree_identity_recreated :
    ∃ s, Path treesStep Undisturbed TreesState.fresh recreated s ∧ s.given.length = 2 ∧
      (s.given.map Given.treeId).Nodup ∧ ∀ g ∈ s.given, g.content = some ∅ := by
  obtain ⟨s, -, hrun, hcount⟩ := path_of_guardedTo
    (show guardedTo treesStep Undisturbed (fun s => s.given.length = 2) TreesState.fresh
      recreated = true by decide +kernel)
  exact ⟨s, hrun, hcount, tree_identity hrun⟩

/-- A creation returns before its record is synced, and a crash loses it. -/
def unsyncedCreation : List TreesAction :=
  [.create [120], .createFlush, .createPublish, .crash 0 [],
    .create [121], .createFlush, .createPublish]

/-- Two checkpoints: the second has written the root of a tree when the first finds its own
capture of it stale, and gives all its images back while the second tests. -/
def restoredInTest : List TreesAction :=
  [.create [120], .createFlush, .createPublish, .write [([120], 1, .insert [107] [1])], .sync 2,
    .capture [.root 1, .entry [120], .next], .write [([120], 2, .insert [107] [2])], .sync 3,
    .capture [.root 1], .store 3, .flush, .beginTest, .testDirty, .giveUp 2, .giveUp 1, .giveUp 0,
    .truncate, .crash 0 [], .create [121], .createFlush, .createPublish]

/-- An id is given to two creations, and a tree that has just been created has a record. -/
theorem id_given_twice :
    (∃ s, FreePath treesStep TreesState.fresh unsyncedCreation s ∧
      s.given.map Given.treeId = [1, 1]) ∧
    ∃ s g m r, FreePath treesStep TreesState.fresh restoredInTest s ∧ g ∈ s.given ∧
      g.treeId = 1 ∧ g.content = some m ∧ m.lookup [107] = some r := by
  constructor
  · have hcheck : (exec treesStep TreesState.fresh unsyncedCreation).any
        (fun s => decide (s.given.map Given.treeId = [1, 1])) = true := by decide +kernel
    obtain ⟨s, hexec, hids⟩ := exists_of_exec_any hcheck
    exact ⟨s, freePath_of_exec hexec, of_decide_eq_true hids⟩
  · have hcheck : (exec treesStep TreesState.fresh restoredInTest).any
        (fun s => s.given.any fun g => decide (g.treeId = 1) &&
          g.content.any fun m => (m.lookup [107]).isSome) = true := by decide +kernel
    obtain ⟨s, hexec, hany⟩ := exists_of_exec_any hcheck
    obtain ⟨g, hg, hcontent⟩ := List.any_eq_true.mp hany
    simp only [Bool.and_eq_true, decide_eq_true_eq] at hcontent
    obtain ⟨hid, hcontent⟩ := hcontent
    obtain ⟨m, hm, hsome⟩ := (Option.any_eq_true _ _).mp hcontent
    obtain ⟨r, hr⟩ := isSome_iff_exists.mp hsome
    exact ⟨s, g, m, r, freePath_of_exec hexec, hg, hid, hm, hr⟩

end Trees
end Db
end Holt
