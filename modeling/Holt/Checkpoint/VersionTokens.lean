import Holt.Checkpoint.Versions

/-!
# No version token is reused

The record under a key is always as new as the last logged operation that wrote the key
(`Newest`), and its version is the number of a logged operation (`Given`).  Both hold of what
readers see; of what is on disk they hold for the operations logged before the last
truncation, and replay brings in the rest (`newest_replay`): each redone operation gives the
keys it writes its own number.  Since numbers only grow along the history of the tree
(`LifeInv.increasing`), a record whose version was already seen at an earlier moment cannot
have been written after it.
-/

namespace Holt
namespace Checkpoint

open List Option Holt.Tree Transition

/-! ## Versions in a map -/

section Sound

/-- No operation of the history has written the key after the record was put there. -/
def Newest (history : List (ℕ × WalOp)) (m : VersionedMap) : Prop :=
  ∀ key record, m.lookup key = some record →
    ∀ op ∈ history, replaces key op.2 = true → op.1 ≤ record.version

/-- Every version in the map is the number of a logged operation. -/
def Given (history : List (ℕ × WalOp)) (m : VersionedMap) : Prop :=
  ∀ key record, m.lookup key = some record → record.version ∈ history.map Prod.fst

variable {history : List (ℕ × WalOp)} {m : VersionedMap}

lemma Given.mono {more : List (ℕ × WalOp)} (h : Given history m) : Given (history ++ more) m := by
  intro key record hrec
  rw [map_append]
  exact mem_append_left _ (h key record hrec)

lemma Newest.of_append (more : List (ℕ × WalOp)) (h : Newest (history ++ more) m) :
    Newest history m :=
  fun key record hrec op hop hkey => h key record hrec op (mem_append_left _ hop) hkey

/-- Where an operation puts a record, it gives it its own number; other keys keep theirs. -/
def WritesOwn (m m' : VersionedMap) (op : ℕ × WalOp) : Prop :=
  ∀ key record, m'.lookup key = some record →
    record.version = op.1 ∨ (replaces key op.2 = false ∧ m.lookup key = some record)

variable {op : ℕ × WalOp}

lemma WritesOwn.newest {m' : VersionedMap} (hown : WritesOwn m m' op) (hnewest : Newest history m)
    (hlt : ∀ o ∈ history, o.1 < op.1) : Newest (history ++ [op]) m' := by
  intro key record hrec o ho hkey
  rcases Table.mem_concat ho with hold | rfl
  · rcases hown key record hrec with hversion | ⟨-, hsame⟩
    · rw [hversion]
      exact (hlt o hold).le
    · exact hnewest key record hsame o hold hkey
  · rcases hown key record hrec with hversion | ⟨hnot, -⟩
    · exact hversion.ge
    · simp [hnot] at hkey

lemma WritesOwn.given {m' : VersionedMap} (hown : WritesOwn m m' op) (hgiven : Given history m)
    (hop : op ∈ history) : Given history m' := by
  intro key record hrec
  rcases hown key record hrec with hversion | ⟨-, hsame⟩
  · rw [hversion]
    exact List.mem_map_of_mem hop
  · exact hgiven key record hsame

lemma writesOwn_insert (m : VersionedMap) (q : ℕ) (key : Key) (value : Value) :
    WritesOwn m (m.insert key ⟨value, q⟩) (q, .insert key value) := by
  intro k record hrec
  rw [VersionedMap.lookup_insert_eq] at hrec
  split_ifs at hrec with h
  · exact .inl (Option.some.inj hrec ▸ rfl)
  · exact .inr ⟨by simp [replaces, h], hrec⟩

lemma writesOwn_erase (m : VersionedMap) (q : ℕ) (key : Key) :
    WritesOwn m (m.erase key) (q, .erase key) := by
  intro k record hrec
  rw [VersionedMap.lookup_erase_eq] at hrec
  split_ifs at hrec with h
  exact .inr ⟨by simp [replaces, h], hrec⟩

lemma writesOwn_rename (m : VersionedMap) (q : ℕ) (src dst : Key) (force : Bool) (value : Value) :
    WritesOwn m ((m.erase src).insert dst ⟨value, q⟩) (q, .rename src dst force) := by
  intro k record hrec
  rw [VersionedMap.lookup_insert_eq, VersionedMap.lookup_erase_eq] at hrec
  split_ifs at hrec with hdst hsrc
  · exact .inl (Option.some.inj hrec ▸ rfl)
  · exact .inr ⟨by simp [replaces, hdst, hsrc], hrec⟩

lemma writesOwn_perform (hacc : Accepted (mapValues m) op.2) : WritesOwn m (perform m op) op := by
  obtain ⟨q, op⟩ := op
  cases op with
  | insert key value => exact writesOwn_insert m q key value
  | erase key => exact writesOwn_erase m q key
  | rename src dst force =>
    simp only [perform]
    split_ifs with heq
    · exact fun key record hrec => .inr ⟨by simp [replaces, heq], hrec⟩
    · obtain ⟨value, hvalue⟩ := ne_none_iff_exists'.mp hacc.1
      obtain ⟨record, hrec, rfl⟩ := map_eq_some_iff.mp hvalue
      rw [hrec]
      exact writesOwn_rename m q src dst force record.value

/-- Performed operations leave every key with the number of the last one that wrote it. -/
lemma newest_foldl_perform {ops : List (ℕ × WalOp)}
    (hinc : ((history ++ ops).map Prod.fst).Pairwise (· < ·))
    (hacc : AllAccepted (mapValues m) (ops.map Prod.snd)) (hnewest : Newest history m)
    (hgiven : Given (history ++ ops) m) : Newest (history ++ ops) (ops.foldl perform m) ∧
      Given (history ++ ops) (ops.foldl perform m) := by
  induction ops generalizing history m with
  | nil => exact ⟨by simpa using hnewest, hgiven⟩
  | cons op rest ih =>
    have hown := writesOwn_perform hacc.1
    have hlt : ∀ o ∈ history, o.1 < op.1 := by
      intro o ho
      rw [map_append, pairwise_append] at hinc
      exact hinc.2.2 o.1 (List.mem_map_of_mem ho) op.1 (by simp)
    have hsplit : history ++ op :: rest = history ++ [op] ++ rest := by simp
    rw [hsplit] at hinc hgiven ⊢
    refine ih hinc ?_ (hown.newest hnewest hlt) (hown.given hgiven (by simp))
    rw [mapValues_perform hacc.1]
    exact hacc.2

end Sound

/-! ## Replay -/

section Replay

lemma replayWal_eq (m : VersionedMap) (wal : List WalRecord) :
    replayWal m wal = (walOps wal).foldl (fun m op => replayOp m op.1 op.2) m := by
  have hbatch : ∀ (ops : List WalOp) (m : VersionedMap) (base : ℕ), replayBatch m base ops =
      (numbered base ops).foldl (fun m op => replayOp m op.1 op.2) m := by
    intro ops
    induction ops with
    | nil => exact fun _ _ => rfl
    | cons op rest ih => exact fun m base => ih (replayOp m base op) (base + 1)
  induction wal generalizing m with
  | nil => rfl
  | cons record rest ih =>
    have hcons : walOps (record :: rest) = walOps [record] ++ walOps rest := by simp [walOps]
    rw [hcons, foldl_append]
    refine (ih (replayRecord m record)).trans (congrArg (fun m' => List.foldl _ m' _) ?_)
    cases record with
    | single seq op => rfl
    | batch base ops =>
      have hops : walOps [.batch base ops] = numbered base ops := append_nil _
      rw [hops]
      exact hbatch ops m base

lemma mapValues_replayOp (m : VersionedMap) (q : ℕ) (op : WalOp) :
    mapValues (replayOp m q op) = redo (mapValues m) op := by
  cases op with
  | insert key value => exact mapValues_insert m key _
  | erase key =>
    rw [replayOp, VersionedMap.eraseConditional_always_fst]
    exact mapValues_erase m key
  | rename src dst force =>
    simp only [replayOp, redo, mapValues, VersionedMap.eraseConditional_always_fst,
      VersionedMap.insertConditional_always]
    cases hsrc : m.lookup src with
    | none => rfl
    | some record =>
      simp only [map_some, isSome_map]
      split_ifs with hdst
      · rfl
      · exact (mapValues_insert (m.erase src) dst ⟨record.value, q⟩).trans
          (by rw [mapValues_erase])

lemma mapValues_replay (m : VersionedMap) (ops : List (ℕ × WalOp)) :
    mapValues (ops.foldl (fun m op => replayOp m op.1 op.2) m) =
      (ops.map Prod.snd).foldl redo (mapValues m) := by
  induction ops generalizing m with
  | nil => rfl
  | cons op rest ih => rw [foldl_cons, ih, mapValues_replayOp, map_cons, foldl_cons]

/-- A redone rename that finds its source, and its destination free, gives the destination its
own number. -/
lemma writesOwn_replayOp {m : VersionedMap} {op : ℕ × WalOp}
    (hmeet : ∀ src dst force, op.2 = .rename src dst force → src ≠ dst →
      mapValues m src ≠ none ∧ (force = false → mapValues m dst = none)) :
    WritesOwn m (replayOp m op.1 op.2) op := by
  obtain ⟨q, op⟩ := op
  cases op with
  | insert key value => exact writesOwn_insert m q key value
  | erase key =>
    simp only [replayOp, VersionedMap.eraseConditional_always_fst]
    exact writesOwn_erase m q key
  | rename src dst force =>
    simp only [replayOp, VersionedMap.eraseConditional_always_fst,
      VersionedMap.insertConditional_always]
    by_cases heq : src = dst
    · -- a key renamed onto itself may get a newer number, and keeps its record otherwise
      have hkeep : WritesOwn m m (q, .rename src dst force) :=
        fun key record hrec => .inr ⟨by simp [replaces, heq], hrec⟩
      cases hsrc : m.lookup src with
      | none => exact hkeep
      | some record =>
        simp only
        split_ifs
        · exact hkeep
        · exact writesOwn_rename m q src dst force record.value
    · obtain ⟨hsome, hfree⟩ := hmeet src dst force rfl heq
      obtain ⟨value, hvalue⟩ := ne_none_iff_exists'.mp hsome
      obtain ⟨record, hrec, rfl⟩ := map_eq_some_iff.mp hvalue
      have hdst : ¬ (force = false ∧ (m.lookup dst).isSome = true) := by
        rintro ⟨hf, hd⟩
        have := hfree hf
        simp only [mapValues, map_eq_none_iff] at this
        simp [this] at hd
      rw [hrec]
      simp only [if_neg hdst]
      exact writesOwn_rename m q src dst force record.value

/-- Replay from any map that is right on the keys replaced so far leaves every key with the
number of the last operation that wrote it. -/
theorem newest_replay {before seen ops : List (ℕ × WalOp)} {m : VersionedMap}
    {v : Key → Option Value}
    (hinc : ((before ++ seen ++ ops).map Prod.fst).Pairwise (· < ·))
    (hacc : AllAccepted v (ops.map Prod.snd))
    (hcov : renamesCovered (seen.map Prod.snd) (ops.map Prod.snd) = true)
    (hseen : ∀ key, (seen.map Prod.snd).any (replaces key) = true → mapValues m key = v key)
    (hnewest : Newest (before ++ seen) m) (hgiven : Given (before ++ seen ++ ops) m) :
    Newest (before ++ seen ++ ops) (ops.foldl (fun m op => replayOp m op.1 op.2) m) ∧
      Given (before ++ seen ++ ops) (ops.foldl (fun m op => replayOp m op.1 op.2) m) := by
  induction ops generalizing seen m v with
  | nil => exact ⟨by simpa using hnewest, hgiven⟩
  | cons op rest ih =>
    have hown : WritesOwn m (replayOp m op.1 op.2) op := by
      refine writesOwn_replayOp (fun src dst force hop hne => ?_)
      have hacc' := hacc.1
      rw [map_cons] at hcov
      rw [hop] at hacc' hcov
      simp only [renamesCovered, hne, Bool.or_eq_true, decide_false, Bool.false_eq_true, false_or,
        Bool.and_eq_true] at hcov
      rw [hseen src hcov.1.1]
      refine ⟨hacc'.1, fun hf => ?_⟩
      rw [hseen dst (hcov.1.2.resolve_left (by simp [hf]))]
      exact hacc'.2 hne hf
    have hlt : ∀ o ∈ before ++ seen, o.1 < op.1 := by
      intro o ho
      rw [map_append, pairwise_append] at hinc
      exact hinc.2.2 o.1 (List.mem_map_of_mem ho) op.1 (by simp)
    have hsplit : before ++ seen ++ op :: rest = before ++ (seen ++ [op]) ++ rest := by simp
    rw [hsplit] at hinc hgiven ⊢
    refine ih hinc hacc.2 ?_ ?_ ?_ (hown.given hgiven (by simp))
    · rw [map_append]
      exact renamesCovered_tail hcov
    · intro key hkey
      rw [mapValues_replayOp]
      exact redo_covered hacc.1 hcov hseen key (by simpa using hkey)
    · rw [← append_assoc]
      exact hown.newest hnewest hlt

end Replay

/-! ## Runs -/

section Lives

/-- A map that may be on disk: it has the old values under the keys no retained record
replaces, and nothing in it is older than the last truncation. -/
structure Recoverable (before : List (ℕ × WalOp)) (base : VersionedMap) (wal : List WalRecord)
    (m : VersionedMap) : Prop where
  value : ∀ key, ¬ Touched wal key → mapValues m key = mapValues base key
  newest : Newest before m
  given : Given (before ++ walOps wal) m

/-- What every state of a run satisfies: `before` was logged before the last truncation, when
the tree held `base`. -/
structure LifeInv (before : List (ℕ × WalOp)) (base : VersionedMap) (l : Lifetime) : Prop where
  history : l.history = before ++ walOps l.store.wal
  increasing : (l.history.map Prod.fst).Pairwise (· < ·)
  below : ∀ n ∈ l.history.map Prod.fst, n < l.store.nextSeq
  isOpen : l.store.failedClosed = false
  stagedOnce : StagedOnce l.store.pending
  art : Recoverable before base l.store.wal l.store.art
  durable : Recoverable before base l.store.wal l.durable
  newest : Newest l.history l.store.contents
  given : Given l.history l.store.contents
  values : mapValues l.store.contents = (loggedOps l.store.wal).foldl acknowledge (mapValues base)
  accepted : AllAccepted (mapValues base) (loggedOps l.store.wal)
  covered : renamesCovered [] (loggedOps l.store.wal) = true

variable {before : List (ℕ × WalOp)} {base : VersionedMap} {l : Lifetime}

lemma lifeInv_created : LifeInv [] ∅ .created := by
  have hempty : ∀ (history : List (ℕ × WalOp)), Newest history ∅ ∧ Given history ∅ := fun history =>
    ⟨fun key record h => by simp at h, fun key record h => by simp at h⟩
  have hrec : Recoverable [] ∅ [] ∅ := ⟨fun _ _ => rfl, (hempty _).1, (hempty _).2⟩
  exact ⟨rfl, List.Pairwise.nil, by simp [Lifetime.created], rfl, nodup_nil, hrec, hrec,
    (hempty _).1, (hempty _).2, rfl, trivial, rfl⟩

lemma LifeInv.recoverable_contents (inv : LifeInv before base l) :
    Recoverable before base l.store.wal l.store.contents := by
  refine ⟨fun key hkey => ?_, ?_, ?_⟩
  · rw [inv.values]
    exact foldl_acknowledge_of_not_replaced (by simpa [Touched] using hkey)
  · exact Newest.of_append (walOps l.store.wal) (inv.history ▸ inv.newest)
  · rw [← inv.history]
    exact inv.given

lemma LifeInv.flush (inv : LifeInv before base l) :
    LifeInv before base { l with store := flushWriteDelta l.store } :=
  ⟨inv.history, inv.increasing, inv.below, inv.isOpen, nodup_nil, inv.recoverable_contents,
    inv.durable, inv.newest, inv.given, inv.values, inv.accepted, inv.covered⟩

variable {wal : List WalRecord}

/-- Records that are logged after it was written leave a map recoverable. -/
lemma Recoverable.append {m : VersionedMap} (h : Recoverable before base wal m)
    (records : List WalRecord) : Recoverable before base (wal ++ records) m := by
  refine ⟨fun key hkey => h.value key (fun ht => hkey ?_), h.newest, ?_⟩
  · simp only [Touched, loggedOps, walOps, flatMap_append, map_append,
      any_append, Bool.or_eq_true] at ht ⊢
    exact .inl ht
  · simp only [walOps, flatMap_append] at h ⊢
    rw [← append_assoc]
    exact h.given.mono

lemma walOps_append (wal records : List WalRecord) :
    walOps (wal ++ records) = walOps wal ++ walOps records := flatMap_append

lemma increasing_append {history ops : List (ℕ × WalOp)} {n : ℕ}
    (hinc : (history.map Prod.fst).Pairwise (· < ·)) (hbelow : ∀ k ∈ history.map Prod.fst, k < n)
    (hops : ops.map Prod.fst = List.range' n ops.length) :
    ((history ++ ops).map Prod.fst).Pairwise (· < ·) ∧
      ∀ k ∈ (history ++ ops).map Prod.fst, k < n + ops.length := by
  have hnew : ∀ k ∈ ops.map Prod.fst, n ≤ k ∧ k < n + ops.length := by
    intro k hk
    rw [hops, mem_range'_1] at hk
    exact hk
  rw [map_append]
  constructor
  · refine pairwise_append.mpr ⟨hinc, ?_, fun a ha b hb => ?_⟩
    · rw [hops]
      exact pairwise_lt_range'
    · exact lt_of_lt_of_le (hbelow a ha) (hnew b hb).1
  · intro k hk
    rcases mem_append.mp hk with hold | hadded
    · exact lt_of_lt_of_le (hbelow k hold) (Nat.le_add_right _ _)
    · exact (hnew k hadded).2

lemma LifeInv.performs (inv : LifeInv before base l) {s' : Store} {logs : List WalOp}
    {ops : List (ℕ × WalOp)} (hdo : Performs l.store s' logs ops)
    (hcov : renamesCovered (loggedOps l.store.wal) logs = true) :
    LifeInv before base { l with store := s', history := l.history ++ ops } := by
  obtain ⟨records, hwal, hrecords⟩ := hdo.logged
  have hops : loggedOps s'.wal = loggedOps l.store.wal ++ ops.map Prod.snd := by
    rw [loggedOps, hwal, walOps_append, hrecords, map_append, loggedOps]
  obtain ⟨hinc, hbelow⟩ := increasing_append inv.increasing inv.below hdo.numbers
  obtain ⟨hnewest, hgiven⟩ := newest_foldl_perform hinc hdo.accepted inv.newest inv.given.mono
  have hvalues := mapValues_foldl_perform hdo.accepted
  rw [← hdo.contents] at hnewest hgiven hvalues
  have hhistory : l.history ++ ops = before ++ walOps s'.wal := by
    rw [inv.history, hwal, walOps_append, hrecords, append_assoc]
  have hval : mapValues s'.contents =
      (loggedOps s'.wal).foldl acknowledge (mapValues base) := by
    rw [hvalues, inv.values, hops, foldl_append]
  have hcontents : Recoverable before base s'.wal s'.contents := by
    refine ⟨fun key hkey => ?_, ?_, hhistory ▸ hgiven⟩
    · rw [hval]
      exact foldl_acknowledge_of_not_replaced (by simpa [Touched] using hkey)
    · exact Newest.of_append (walOps s'.wal) (hhistory ▸ hnewest)
  refine ⟨hhistory, hinc, fun n hn => lt_of_lt_of_le (hbelow n hn) hdo.counter, hdo.isOpen,
    hdo.stagedOnce, ?_, ?_, hnewest, hgiven, hval, ?_, ?_⟩
  · rcases hdo.art with hart | hart
    · rw [hart, hwal]
      exact inv.art.append records
    · rw [hart]
      exact hcontents
  · rw [hwal]
    exact inv.durable.append records
  · rw [hops]
    exact allAccepted_append inv.accepted (inv.values ▸ hdo.accepted)
  · rw [hops]
    refine renamesCovered_append inv.covered ?_
    rcases hdo.whole with hnil | hall
    · rw [hnil]
      rfl
    · rw [hall]
      exact hcov

/-- A call performs what it logs, possibly after a flush. -/
lemma LifeInv.performs_callLog (inv : LifeInv before base l) (op : Op) :
    ∃ s₁, s₁.wal = l.store.wal ∧ LifeInv before base { l with store := s₁ } ∧
      Performs s₁ (runCall l.store op).1 (opLogs op) (callLog l.store op) := by
  obtain ⟨s₁, ops, hs₁, hdo⟩ := performs_runCall inv.stagedOnce inv.isOpen op
  obtain ⟨records, hwal, rfl⟩ := hdo.logged
  have hsame : s₁.wal = l.store.wal := by
    rcases hs₁ with rfl | rfl <;> rfl
  refine ⟨s₁, hsame, ?_, ?_⟩
  · rcases hs₁ with rfl | rfl
    · exact inv
    · exact inv.flush
  · rwa [callLog, hwal, hsame, drop_left]

lemma LifeInv.call (inv : LifeInv before base l) {op : Op}
    (hcov : renamesCovered (loggedOps l.store.wal) (opLogs op) = true) :
    LifeInv before base { l with
      store := (runCall l.store op).1
      history := l.history ++ callLog l.store op } := by
  obtain ⟨s₁, hsame, hinv, hdo⟩ := inv.performs_callLog op
  exact hinv.performs hdo (hsame ▸ hcov)

lemma lookup_writeBackKey (art durable : VersionedMap) (k key : Key) :
    (writeBackKey art durable k).lookup key =
      if key = k then art.lookup key else durable.lookup key := by
  unfold writeBackKey
  by_cases heq : key = k
  · subst heq
    rw [if_pos rfl]
    cases art.lookup key with
    | none => exact Finmap.lookup_erase _ _
    | some record => exact Finmap.lookup_insert _
  · rw [if_neg heq]
    cases art.lookup k with
    | none => exact Finmap.lookup_erase_ne heq
    | some record => exact Finmap.lookup_insert_of_ne _ heq

lemma lookup_writeBack (art durable : VersionedMap) (keys : List Key) (key : Key) :
    (writeBack art durable keys).lookup key = art.lookup key ∨
      (writeBack art durable keys).lookup key = durable.lookup key := by
  unfold writeBack
  induction keys generalizing durable with
  | nil => exact .inr rfl
  | cons k rest ih =>
    rw [foldl_cons]
    rcases ih (writeBackKey art durable k) with hart | hdurable
    · exact .inl hart
    · rw [hdurable, lookup_writeBackKey]
      by_cases heq : key = k
      · exact .inl (if_pos heq)
      · exact .inr (if_neg heq)

lemma Recoverable.writeBack {art durable : VersionedMap} (hart : Recoverable before base wal art)
    (hdurable : Recoverable before base wal durable) (keys : List Key) :
    Recoverable before base wal (Checkpoint.writeBack art durable keys) := by
  have hlookup := lookup_writeBack art durable keys
  refine ⟨fun key hkey => ?_, fun key record hrec => ?_, fun key record hrec => ?_⟩
  · rcases hlookup key with h | h
    · rw [mapValues, h]
      exact hart.value key hkey
    · rw [mapValues, h]
      exact hdurable.value key hkey
  · rcases hlookup key with h | h
    · exact hart.newest key record (h ▸ hrec)
    · exact hdurable.newest key record (h ▸ hrec)
  · rcases hlookup key with h | h
    · exact hart.given key record (h ▸ hrec)
    · exact hdurable.given key record (h ▸ hrec)

/-- A truncated log starts over from the tree that is on disk. -/
lemma LifeInv.truncate (inv : LifeInv before base l) (hpending : l.store.pending = [])
    (hclean : l.durable = l.store.art) :
    LifeInv l.history l.store.art { l with store := { l.store with wal := [] } } := by
  have hcontents : l.store.contents = l.store.art := by rw [Store.contents, hpending]; rfl
  have hnewest := inv.newest
  have hgiven := inv.given
  rw [hcontents] at hnewest hgiven
  have hart : Recoverable l.history l.store.art [] l.store.art :=
    ⟨fun _ _ => rfl, hnewest, by simpa [walOps] using hgiven⟩
  exact ⟨by simp [walOps], inv.increasing, inv.below, inv.isOpen, inv.stagedOnce, hart,
    hclean ▸ hart, inv.newest, inv.given, by rw [← hcontents]; rfl, trivial, rfl⟩

/-- If the last operation is in the log, no call was cut off between its change and its
record. -/
lemma LifeInv.unlogged_eq_nil (inv : LifeInv before base l) {cut : Option Op} {kept : ℕ}
    (hlast : ∀ op ∈ (l.history ++ unlogged l.store cut).getLast?,
      op ∈ walOps (l.store.wal.take kept)) : unlogged l.store cut = [] := by
  cases cut with
  | none => rfl
  | some op =>
    by_cases hdirect : op.flushesFirst = true
    swap
    · exact if_neg hdirect
    rw [unlogged, if_pos hdirect] at hlast ⊢
    by_contra hne
    obtain ⟨s₁, -, hinv, hdo⟩ := inv.performs_callLog op
    obtain ⟨hinc, -⟩ := increasing_append hinv.increasing hinv.below hdo.numbers
    -- its numbers are above those of the log
    obtain ⟨rest, o, hrest⟩ := (eq_nil_or_concat' _).resolve_left hne
    have hlogged : o ∈ walOps (l.store.wal.take kept) := hlast o (by simp [hrest])
    have hold : o ∈ l.history := by
      rw [inv.history, ← take_append_drop kept l.store.wal, walOps_append]
      exact mem_append_right _ (mem_append_left _ hlogged)
    rw [map_append, pairwise_append] at hinc
    exact lt_irrefl o.1 (hinc.2.2 o.1 (List.mem_map_of_mem hold) o.1 (by simp [hrest]))

/-- If the last operation logged is in the part of the log that is left, all of it is left. -/
lemma LifeInv.whole_of_last (inv : LifeInv before base l) {kept : ℕ}
    (hlast : ∀ op ∈ l.history.getLast?, op ∈ walOps (l.store.wal.take kept)) :
    walOps (l.store.wal.take kept) = walOps l.store.wal ∧
      (walOps l.store.wal = [] → l.history = []) := by
  have hsplit : walOps l.store.wal =
      walOps (l.store.wal.take kept) ++ walOps (l.store.wal.drop kept) := by
    rw [← walOps_append, take_append_drop]
  have hempty : walOps l.store.wal = [] → l.history = [] := by
    intro hnil
    by_contra hne
    have hmem := hlast _ (getLast?_eq_getLast_of_ne_nil hne)
    rw [hnil] at hsplit
    rw [(append_eq_nil_iff.mp hsplit.symm).1] at hmem
    exact not_mem_nil hmem
  refine ⟨?_, hempty⟩
  have hdropped : walOps (l.store.wal.drop kept) = [] := by
    by_contra hne
    -- otherwise the last operation is in both parts, with one number
    obtain ⟨rest, op, hrest⟩ := (eq_nil_or_concat' _).resolve_left hne
    have hhist : l.history = before ++ walOps (l.store.wal.take kept) ++ rest ++ [op] := by
      rw [inv.history, hsplit, hrest]
      simp
    have hmem : op ∈ walOps (l.store.wal.take kept) := hlast op (by simp [hhist])
    have hinc := inv.increasing
    rw [hhist, map_append, pairwise_append] at hinc
    exact lt_irrefl op.1 (hinc.2.2 op.1 (List.mem_map_of_mem (by simp [hmem])) op.1 (by simp))
  rw [hsplit, hdropped, append_nil]

/-- The counter of a reopened tree is above every number of its log. -/
lemma lt_highestSeq {n : ℕ} (hn : n ∈ (walOps wal).map Prod.fst) :
    n < (highestSeq wal).getD 0 + 1 := by
  rw [highestSeq]
  cases hmax : ((walOps wal).map Prod.fst).max? with
  | none =>
    rw [max?_eq_none_iff] at hmax
    simp [hmax] at hn
  | some top =>
    have := (max?_eq_some_iff.mp hmax).2 n hn
    simpa using Nat.lt_succ_of_le this

lemma LifeInv.reopen (inv : LifeInv before base l) {kept : ℕ}
    (hlast : ∀ op ∈ l.history.getLast?, op ∈ walOps (l.store.wal.take kept)) :
    LifeInv before base { l with
      store := ⟨replayWal l.durable (l.store.wal.take kept), [], l.store.wal.take kept,
        (highestSeq (l.store.wal.take kept)).getD 0 + 1, false⟩ } := by
  obtain ⟨hwal, hempty⟩ := inv.whole_of_last hlast
  have hops : loggedOps (l.store.wal.take kept) = loggedOps l.store.wal := by
    rw [loggedOps, hwal, loggedOps]
  have htouched : ∀ key, Touched (l.store.wal.take kept) key ↔ Touched l.store.wal key := by
    intro key
    rw [Touched, hops, Touched]
  have hinc := inv.increasing
  rw [inv.history] at hinc
  have hmove : ∀ m, Recoverable before base l.store.wal m →
      Recoverable before base (l.store.wal.take kept) m := fun m h =>
    ⟨fun key hkey => h.value key (fun ht => hkey ((htouched key).mpr ht)), h.newest,
      hwal ▸ h.given⟩
  -- every number is in the log, or nothing was ever logged
  have hbelow : ∀ n ∈ l.history.map Prod.fst,
      n < (highestSeq (l.store.wal.take kept)).getD 0 + 1 := by
    intro n hn
    rw [inv.history, map_append] at hn
    rcases mem_append.mp hn with hold | hnew
    · by_cases hnil : walOps l.store.wal = []
      · rw [inv.history, append_eq_nil_iff] at hempty
        simp [(hempty hnil).1] at hold
      · obtain ⟨op, hop⟩ := exists_mem_of_ne_nil _ hnil
        have hmem : op.1 ∈ (walOps l.store.wal).map Prod.fst := List.mem_map_of_mem hop
        rw [map_append, pairwise_append] at hinc
        exact (hinc.2.2 n hold op.1 hmem).trans (lt_highestSeq (hwal ▸ hmem))
    · exact lt_highestSeq (hwal ▸ hnew)
  obtain ⟨hnewest, hgiven⟩ := @newest_replay before [] (walOps l.store.wal) l.durable
    (mapValues base) (by simpa using hinc) inv.accepted
    inv.covered (by simp) (by simpa using inv.durable.newest) (by simpa using inv.durable.given)
  have hreplay : replayWal l.durable (l.store.wal.take kept) =
      (walOps l.store.wal).foldl (fun m op => replayOp m op.1 op.2) l.durable := by
    rw [replayWal_eq, hwal]
  simp only [append_nil] at hnewest hgiven
  rw [← hreplay, ← inv.history] at hnewest hgiven
  have hvalues : mapValues (replayWal l.durable (l.store.wal.take kept)) =
      (loggedOps l.store.wal).foldl acknowledge (mapValues base) := by
    funext key
    rw [hreplay, mapValues_replay]
    change (loggedOps l.store.wal).foldl redo (mapValues l.durable) key = _
    by_cases ht : Touched l.store.wal key
    · exact redo_exact inv.accepted inv.covered (by simp) key (by simpa [Touched] using ht)
    · have hno : (loggedOps l.store.wal).any (replaces key) = false := by
        simpa [Touched] using ht
      rw [foldl_redo_of_not_replaced hno, foldl_acknowledge_of_not_replaced hno]
      exact inv.durable.value key ht
  have hart : Recoverable before base l.store.wal
      (replayWal l.durable (l.store.wal.take kept)) := by
    refine ⟨fun key hkey => ?_, ?_, inv.history ▸ hgiven⟩
    · rw [hvalues]
      exact foldl_acknowledge_of_not_replaced (by simpa [Touched] using hkey)
    · exact Newest.of_append (walOps l.store.wal) (inv.history ▸ hnewest)
  refine ⟨by rw [hwal]; exact inv.history, inv.increasing, hbelow, rfl, nodup_nil,
    hmove _ hart, hmove _ inv.durable, hnewest, hgiven, ?_, ?_, ?_⟩
  · rw [hops]
    exact hvalues
  · rw [hops]
    exact inv.accepted
  · rw [hops]
    exact inv.covered

lemma lifeInv_step (l : Lifetime) (a : LifeStep) (l' : Lifetime)
    (hinv : ∃ before base, LifeInv before base l) (hguard : TokensKept l a)
    (hstep : lifeStep l a = some l') : ∃ before base, LifeInv before base l' := by
  obtain ⟨before, base, inv⟩ := hinv
  cases a with
  | call op =>
    cases hstep
    exact ⟨before, base, inv.call hguard.2⟩
  | flush =>
    cases hstep
    exact ⟨before, base, inv.flush⟩
  | writeBack keys =>
    cases hstep
    exact ⟨before, base, inv.history, inv.increasing, inv.below, inv.isOpen, inv.stagedOnce,
      inv.art, inv.art.writeBack inv.durable keys, inv.newest, inv.given, inv.values,
      inv.accepted, inv.covered⟩
  | truncate =>
    simp only [lifeStep] at hstep
    obtain ⟨hclean, rfl⟩ := guard_eq_some.mp hstep
    exact ⟨l.history, l.store.art, inv.truncate hclean.1 hclean.2⟩
  | reopen cut kept =>
    cases hstep
    have hnone := inv.unlogged_eq_nil hguard
    simp only [TokensKept, hnone, append_nil] at hguard
    rw [hnone, append_nil]
    exact ⟨before, base, inv.reopen hguard⟩

lemma history_append {as : List LifeStep} {l' : Lifetime} {guard : Lifetime → LifeStep → Prop}
    (hrun : Path lifeStep guard l as l') : ∃ ops, l'.history = l.history ++ ops := by
  refine hrun.invariant (I := fun m => ∃ ops, m.history = l.history ++ ops) ?_ ⟨[], by simp⟩
  rintro s a s' ⟨ops, hops⟩ - hstep
  cases a with
  | call op | reopen cut kept =>
    cases hstep
    exact ⟨ops ++ _, by simp only [hops, append_assoc]; rfl⟩
  | truncate =>
    simp only [lifeStep] at hstep
    obtain ⟨hclean, rfl⟩ := guard_eq_some.mp hstep
    exact ⟨ops, hops⟩
  | flush | writeBack keys =>
    cases hstep
    exact ⟨ops, hops⟩

/-- With the numbers of the history increasing, no version is given twice. -/
lemma versionsGiven_nodup {history : List (ℕ × WalOp)}
    (hinc : (history.map Prod.fst).Pairwise (· < ·)) : (versionsGiven history).Nodup := by
  have hversion : ∀ (op : ℕ × WalOp) (given : Key × ℕ), given ∈ versionsGiven [op] →
      given.2 = op.1 := by
    rintro ⟨q, op⟩ given h
    obtain ⟨_, hmem, hgiven⟩ := mem_filterMap.mp h
    cases mem_singleton.mp hmem
    cases op with
    | insert key value => exact (congrArg Prod.snd (Option.some.inj hgiven)).symm
    | erase key => simp at hgiven
    | rename src dst force =>
      simp only at hgiven
      split_ifs at hgiven
      exact (congrArg Prod.snd (Option.some.inj hgiven)).symm
  refine (pairwise_map.mp hinc).filterMap _ (fun a b hlt x hx y hy heq => ?_)
  have := hversion a x (mem_filterMap.mpr ⟨a, mem_singleton_self a, hx⟩)
  have := hversion b y (mem_filterMap.mpr ⟨b, mem_singleton_self b, hy⟩)
  subst heq
  omega

/-- `compare_and_put` passes only on the version it names. -/
lemma version_of_compareAndPut {s : Store} (hopen : s.failedClosed = false) {key : Key}
    {version : ℕ} {value : Value}
    (hpass : (runCall s (.compareAndPut key version value)).2 = .flag true) :
    ∃ record, s.contents.lookup key = some record ∧ record.version = version := by
  have hflush : (flushWriteDelta s).failedClosed = false := hopen
  have hrun : runCall s (.compareAndPut key version value) =
      putInnerConditional (flushWriteDelta s) key value (.ifVersion version) := by
    simp [runCall, runSection, Op.flushesFirst, hopen, hflush]
  rw [hrun, putInnerConditional, VersionedMap.insertConditional] at hpass
  by_cases hallow : (InsertCondition.ifVersion version).allows
      ((flushWriteDelta s).art.lookup key) = true
  · change ∃ record, (flushWriteDelta s).art.lookup key = some record ∧ record.version = version
    simpa [InsertCondition.allows, Option.any_eq_true] using hallow
  · simp [hallow] at hpass

/-- `delete_if_version` passes only on the version it names. -/
lemma version_of_deleteIfVersion {s : Store} (hopen : s.failedClosed = false) {key : Key}
    {version : ℕ} (hpass : (runCall s (.deleteIfVersion key version)).2 = .flag true) :
    ∃ record, s.contents.lookup key = some record ∧ record.version = version := by
  have hflush : (flushWriteDelta s).failedClosed = false := hopen
  have hrun : runCall s (.deleteIfVersion key version) =
      deleteInnerConditional (flushWriteDelta s) key (.ifVersion version) := by
    simp [runCall, runSection, Op.flushesFirst, hopen, hflush]
  rw [hrun, deleteInnerConditional, VersionedMap.eraseConditional] at hpass
  by_cases hallow : (EraseCondition.ifVersion version).allows
      ((flushWriteDelta s).art.lookup key) = true
  · change ∃ record, (flushWriteDelta s).art.lookup key = some record ∧ record.version = version
    simpa [EraseCondition.allows, Option.any_eq_true] using hallow
  · simp [hallow] at hpass

/-- In every life with keys without NUL bytes whose reopens find the last write in the log, no
version is given twice, and a token passes only if its key has not been written since it was
taken. -/
theorem tokens_not_reused {as bs : List LifeStep} {l' : Lifetime}
    (hrun : Path lifeStep TokensKept .created as l) (hrun' : Path lifeStep TokensKept l bs l') :
    (versionsGiven l'.history).Nodup ∧
      ∀ key record value, l.store.contents.lookup key = some record →
        ((runCall l'.store (.compareAndPut key record.version value)).2 = .flag true ∨
          (runCall l'.store (.deleteIfVersion key record.version)).2 = .flag true) →
        ∀ op ∈ l'.history.drop l.history.length, replaces key op.2 = false := by
  have hinv := hrun.invariant lifeInv_step ⟨[], ∅, lifeInv_created⟩
  obtain ⟨before', base', inv'⟩ := hrun'.invariant lifeInv_step hinv
  obtain ⟨before, base, inv⟩ := hinv
  obtain ⟨ops, hops⟩ := history_append hrun'
  refine ⟨versionsGiven_nodup inv'.increasing, fun key record value hrec hpass op hop => ?_⟩
  rw [hops, drop_left] at hop
  obtain ⟨found, hfound, hversion⟩ : ∃ found, l'.store.contents.lookup key = some found ∧
      found.version = record.version := by
    rcases hpass with hpass | hpass
    · exact version_of_compareAndPut inv'.isOpen hpass
    · exact version_of_deleteIfVersion inv'.isOpen hpass
  by_contra hkey
  rw [Bool.not_eq_false] at hkey
  -- the token is a number of the first part, and the record found is as new as the operation
  have hold : record.version ∈ l.history.map Prod.fst := inv.given key record hrec
  have hnew : op.1 ≤ found.version :=
    inv'.newest key found hfound op (hops ▸ mem_append_right _ hop) hkey
  have hinc := inv'.increasing
  rw [hops, map_append, pairwise_append] at hinc
  have hlt := hinc.2.2 _ hold _ (List.mem_map_of_mem hop)
  omega

/-- A tree after `put(a, 1)`. -/
def onePut : Lifetime :=
  ⟨⟨∅, [⟨[97], .put [1] 1⟩], [.single 1 (.insert [97] [1])], 2, false⟩, ∅, [(1, .insert [97] [1])]⟩

/-- A truncation and a reopen whose log still holds the last write. -/
def reopenAfterWrite : List LifeStep :=
  [.flush, .writeBack [[97]], .truncate, .call (.put [98] [2]), .reopen none 1]

theorem tokens_not_reused_reopenAfterWrite :
    ∃ l : Lifetime, exec lifeStep .created [.call (.put [97] [1])] = some onePut ∧
      exec lifeStep onePut reopenAfterWrite = some l ∧
      (runCall l.store (.compareAndPut [97] 1 [3])).2 = .flag true ∧
      (versionsGiven l.history).Nodup ∧
      ∀ op ∈ l.history.drop onePut.history.length, replaces [97] op.2 = false := by
  obtain ⟨l₁, hexec₁, hrun₁, -⟩ := path_of_guardedTo (show guardedTo lifeStep TokensKept
    (fun _ => True) .created [.call (.put [97] [1])] = true by decide +kernel)
  obtain rfl : onePut = l₁ := Option.some.inj hexec₁
  obtain ⟨l, hexec, hrun, hpass⟩ := path_of_guardedTo (show guardedTo lifeStep TokensKept
    (fun l => (runCall l.store (.compareAndPut [97] 1 [3])).2 = .flag true) onePut
    reopenAfterWrite = true by decide +kernel)
  obtain ⟨hnodup, hkeep⟩ := tokens_not_reused hrun₁ hrun
  exact ⟨l, hexec₁, hexec, hpass, hnodup, hkeep [97] ⟨[1], 1⟩ [3] (by decide) (.inl hpass)⟩

end Lives

end Checkpoint
end Holt
