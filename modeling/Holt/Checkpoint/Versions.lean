import Holt.Checkpoint.Recovery

/-!
# Version tokens over the life of a tree

A record's version is the sequence number of the write that put it there, and a conditional
write takes it as proof that the record has not changed.  The counter the numbers come from is
not stored: `Tree::open` sets it one above the highest number in the log it replays, and to 1
if the log is empty.  So a checkpoint that truncates the log, followed by a reopen, starts the
numbers again at 1, and a key can be given a version it had before: in `version_reused` a
token taken before the reopen passes `compare_and_put` after the key has been written again.

`TokensKept` is the condition under which this does not happen: each reopen finds the record of
the last write in the log, neither truncated away nor lost with an unsynced tail nor still to be
submitted, the keys have no NUL bytes, and the renames are covered by the retained log (see
`Holt.Checkpoint.Recovery`).  `performs_runCall` says what a call does in terms of the operations
it logs; the rest of the proof is in `Holt.Checkpoint.VersionTokens`.

Calls run one after the other here, with what they do to the store as in `Holt.Tree`.  A direct
call submits its record after its change, which others can see by then; a crash may come in
between.  The blobs are seen through the records they hold: `writeBack` brings the records of some
keys to the disk, in any order and at any time, and a checkpoint may truncate when nothing is left
to write.
-/

namespace Holt
namespace Checkpoint

open Function List Option Holt.Tree Transition

/-! ## The life of a tree -/

/-- A persistent tree through all its sessions. -/
structure Lifetime where
  store : Store
  /-- The records in the blobs on disk. -/
  durable : VersionedMap
  /-- Every operation performed since the tree was created, with its number. -/
  history : List (ℕ × WalOp)

/-- A new tree. -/
def Lifetime.created : Lifetime := ⟨⟨∅, [], [], 1, false⟩, ∅, []⟩

/-- A call from its start to its result. -/
def runCall (s : Store) (op : Op) : Store × Outcome :=
  runSection (if op.flushesFirst ∧ s.failedClosed = false then flushWriteDelta s else s) op

/-- The record of one key reaches the disk. -/
def writeBackKey (art durable : VersionedMap) (key : Key) : VersionedMap :=
  match art.lookup key with
  | some record => durable.insert key record
  | none => durable.erase key

/-- The blobs that hold `keys` are written. -/
def writeBack (art durable : VersionedMap) (keys : List Key) : VersionedMap :=
  keys.foldl (writeBackKey art) durable

/-- `highest_seq` of a replay. -/
def highestSeq (wal : List WalRecord) : Option ℕ := ((walOps wal).map Prod.fst).max?

inductive LifeStep
  | call (op : Op)
  | flush
  | writeBack (keys : List Key)
  | truncate
  /-- A crash or a close after which this many records of the log are left, and `open`.  The
  crash may cut off a call. -/
  | reopen (cut : Option Op) (kept : ℕ)
deriving DecidableEq

/-- The operations a call performs and logs. -/
def callLog (s : Store) (op : Op) : List (ℕ × WalOp) :=
  walOps ((runCall s op).1.wal.drop s.wal.length)

/-- The operations a call has performed when a crash cuts it off before it submits its record: a
deferred call submits first. -/
def unlogged (s : Store) : Option Op → List (ℕ × WalOp)
  | some op => if op.flushesFirst then callLog s op else []
  | none => []

def lifeStep (l : Lifetime) : LifeStep → Option Lifetime
  | .call op => some { l with
      store := (runCall l.store op).1
      history := l.history ++ callLog l.store op }
  | .flush => some { l with store := flushWriteDelta l.store }
  | .writeBack keys => some { l with durable := writeBack l.store.art l.durable keys }
  | .truncate =>
    if l.store.pending = [] ∧ l.durable = l.store.art then
      some { l with store := { l.store with wal := [] } }
    else none
  | .reopen cut kept =>
    let wal := l.store.wal.take kept
    some { l with
      store := ⟨replayWal l.durable wal, [], wal, (highestSeq wal).getD 0 + 1, false⟩
      history := l.history ++ unlogged l.store cut }

/-- The versions writes have given to keys. -/
def versionsGiven (history : List (ℕ × WalOp)) : List (Key × ℕ) :=
  history.filterMap (fun op => match op.2 with
    | .insert key _ => some (key, op.1)
    | .erase _ => none
    | .rename src dst _ => if src = dst then none else some (dst, op.1))

/-! ## A version is given twice -/

/-- `put(a, 1)`, a checkpoint that truncates the log, a reopen and `put(a, 2)`. -/
def reopenAfterTruncate : List LifeStep :=
  [.flush, .writeBack [[97]], .truncate, .reopen none 0, .call (.put [97] [2])]

/-- The second write gets the version of the first, and the token of the first passes. -/
theorem version_reused :
    ∃ l l' : Lifetime, exec lifeStep .created [.call (.put [97] [1])] = some l ∧
      exec lifeStep l reopenAfterTruncate = some l' ∧
      l.store.contents.lookup [97] = some ⟨[1], 1⟩ ∧
      ¬ (versionsGiven l'.history).Nodup ∧
      (runCall l'.store (.compareAndPut [97] 1 [3])).2 = .flag true ∧
      (runCall l'.store (.deleteIfVersion [97] 1)).2 = .flag true := by
  refine ⟨_, _, rfl, rfl, ?_, ?_, ?_, ?_⟩ <;> decide +kernel

/-! ## The condition -/

/-- What an operation of a batch logs if it is applied. -/
def batchOpLogs : BatchOp → List WalOp
  | .put key value | .putIfAbsent key value | .compareAndPut key _ value => [.insert key value]
  | .delete key | .deleteIfVersion key _ => [.erase key]
  | .assertVersion _ _ | .assertAbsent _ | .assertPrefixEmpty _ => []
  | .rename src dst force => [.rename src dst force]

/-- What a call logs if it takes effect. -/
def opLogs : Op → List WalOp
  | .put key value | .putIfAbsent key value | .compareAndPut key _ value => [.insert key value]
  | .delete key | .deleteIfVersion key _ => [.erase key]
  | .rename src dst force => [.rename src dst force]
  | .atomic ops => ops.flatMap batchOpLogs

/-- The keys of a call have no NUL byte and its renames are covered by the retained log, and a
reopen finds the record of the last operation in the log that is left. -/
def TokensKept (l : Lifetime) : LifeStep → Prop
  | .call op => op.NulFree ∧ renamesCovered (loggedOps l.store.wal) (opLogs op) = true
  | .reopen cut kept => ∀ op ∈ (l.history ++ unlogged l.store cut).getLast?,
      op ∈ walOps (l.store.wal.take kept)
  | _ => True

instance (l : Lifetime) : DecidablePred (TokensKept l) := fun a =>
  match a with
  | .call op => inferInstanceAs
      (Decidable (op.NulFree ∧ renamesCovered (loggedOps l.store.wal) (opLogs op) = true))
  | .reopen cut kept => inferInstanceAs
      (Decidable (∀ op ∈ (l.history ++ unlogged l.store cut).getLast?,
        op ∈ walOps (l.store.wal.take kept)))
  | .flush => instDecidableTrue
  | .writeBack _ => instDecidableTrue
  | .truncate => instDecidableTrue

/-! ## What a call does to the map of its tree -/

section Calls

/-- The values of a map. -/
def mapValues (m : VersionedMap) (key : Key) : Option Value := (m.lookup key).map Record.value

/-- A logged operation as it was performed. -/
def perform (m : VersionedMap) (op : ℕ × WalOp) : VersionedMap :=
  match op.2 with
  | .insert key value => m.insert key ⟨value, op.1⟩
  | .erase key => m.erase key
  | .rename src dst _ =>
    if src = dst then m
    else match m.lookup src with
      | none => m
      | some record => (m.erase src).insert dst ⟨record.value, op.1⟩

lemma mapValues_insert (m : VersionedMap) (key : Key) (r : Record) :
    mapValues (m.insert key r) = update (mapValues m) key (some r.value) := by
  funext k
  rw [mapValues, VersionedMap.lookup_insert_eq]
  split_ifs with h
  · rw [h, update_self, map_some]
  · rw [update_of_ne h, mapValues]

lemma mapValues_erase (m : VersionedMap) (key : Key) :
    mapValues (m.erase key) = update (mapValues m) key none := by
  funext k
  rw [mapValues, VersionedMap.lookup_erase_eq]
  split_ifs with h
  · rw [h, update_self, map_none]
  · rw [update_of_ne h, mapValues]

variable {m : VersionedMap}

lemma mapValues_perform {op : ℕ × WalOp} (hacc : Accepted (mapValues m) op.2) :
    mapValues (perform m op) = acknowledge (mapValues m) op.2 := by
  obtain ⟨q, op⟩ := op
  cases op with
  | insert key value => exact mapValues_insert m key _
  | erase key => exact mapValues_erase m key
  | rename src dst force =>
    simp only [perform, acknowledge]
    split_ifs with heq
    · rfl
    · obtain ⟨value, hvalue⟩ := ne_none_iff_exists'.mp hacc.1
      obtain ⟨record, hrec, rfl⟩ := map_eq_some_iff.mp hvalue
      rw [hrec, mapValues_insert, mapValues_erase, hvalue]

lemma mapValues_foldl_perform {ops : List (ℕ × WalOp)}
    (hacc : AllAccepted (mapValues m) (ops.map Prod.snd)) :
    mapValues (ops.foldl perform m) = (ops.map Prod.snd).foldl acknowledge (mapValues m) := by
  induction ops generalizing m with
  | nil => rfl
  | cons op rest ih =>
    have hop := mapValues_perform hacc.1
    rw [foldl_cons, map_cons, foldl_cons, ← hop]
    exact ih (hop ▸ hacc.2)

/-- A call brings the store from `s` to `s'` by performing the operations it logs, with the
numbers it took from the counter. -/
structure Performs (s s' : Store) (logs : List WalOp) (ops : List (ℕ × WalOp)) : Prop where
  logged : ∃ records, s'.wal = s.wal ++ records ∧ walOps records = ops
  whole : ops = [] ∨ ops.map Prod.snd = logs
  numbers : ops.map Prod.fst = List.range' s.nextSeq ops.length
  counter : s.nextSeq + ops.length ≤ s'.nextSeq
  accepted : AllAccepted (mapValues s.contents) (ops.map Prod.snd)
  contents : s'.contents = ops.foldl perform s.contents
  stagedOnce : StagedOnce s'.pending
  isOpen : s'.failedClosed = false
  art : s'.art = s.art ∨ s'.art = s'.contents

variable {s : Store}

lemma performs_nothing (h : StagedOnce s.pending) (hopen : s.failedClosed = false) (n : ℕ)
    (logs : List WalOp) : Performs s { s with nextSeq := s.nextSeq + n } logs [] :=
  ⟨⟨[], by simp, rfl⟩, .inl rfl, rfl, by simp, trivial, rfl, h, hopen, .inl rfl⟩

lemma performs_staged (h : StagedOnce s.pending) (hopen : s.failedClosed = false) {d : DeltaOp}
    {op : WalOp} (hop : ∀ force src dst, op ≠ .rename src dst force)
    (hd : ∀ m : VersionedMap, applyDeltaOp m d = perform m (s.nextSeq, op)) :
    Performs s { s with
      nextSeq := s.nextSeq + 1
      wal := s.wal ++ [.single s.nextSeq op]
      pending := insertPending s.pending d } [op] [(s.nextSeq, op)] := by
  refine ⟨⟨_, rfl, rfl⟩, .inr rfl, rfl, le_refl _, ⟨?_, trivial⟩, ?_,
    stagedOnce_insertPending h d, hopen, .inl rfl⟩
  · cases op with
    | insert _ _ => trivial
    | erase _ => trivial
    | rename src dst force => exact absurd rfl (hop force src dst)
  · exact (applyWriteDeltaOps_insertPending h s.art d).trans (hd _)

variable {art : VersionedMap}

/-- A call that changes the tree itself, with nothing staged. -/
lemma performs_direct (hpending : s.pending = []) (hopen : s.failedClosed = false) {n : ℕ}
    {record : WalRecord} {logs : List WalOp} (hlogs : (walOps [record]).map Prod.snd = logs)
    (hnumbers : (walOps [record]).map Prod.fst = List.range' s.nextSeq logs.length)
    (hn : logs.length ≤ n) (hacc : AllAccepted (mapValues s.art) logs)
    (hart : art = (walOps [record]).foldl perform s.art) :
    Performs s { s with art := art, nextSeq := s.nextSeq + n, wal := s.wal ++ [record] } logs
      (walOps [record]) := by
  have hlen : (walOps [record]).length = logs.length := by rw [← hlogs, length_map]
  have hsame : s.contents = s.art := by rw [Store.contents, hpending]; rfl
  have hnew : ({ s with art := art, nextSeq := s.nextSeq + n, wal := s.wal ++ [record] } :
      Store).contents = art := by rw [Store.contents, hpending]; rfl
  refine ⟨⟨_, rfl, rfl⟩, .inr hlogs, hlen ▸ hnumbers, ?_, ?_, ?_, ?_, hopen, .inr hnew.symm⟩
  · rw [hlen]
    exact Nat.add_le_add_left hn _
  · rw [hlogs, hsame]
    exact hacc
  · rw [hnew, hsame, hart]
  · rw [hpending]
    exact nodup_nil

lemma performs_putInnerConditional (hpending : s.pending = []) (hopen : s.failedClosed = false)
    (key : Key) (value : Value) (condition : InsertCondition) :
    ∃ ops, Performs s (putInnerConditional s key value condition).1 [.insert key value] ops := by
  have honce : StagedOnce s.pending := by rw [hpending]; exact nodup_nil
  simp only [putInnerConditional, VersionedMap.insertConditional]
  by_cases hallow : condition.allows (s.art.lookup key) = true
  · simp only [hallow, if_true]
    exact ⟨_, performs_direct hpending hopen rfl rfl (le_refl 1) ⟨trivial, trivial⟩ rfl⟩
  · simp only [hallow, Bool.false_eq_true, if_false]
    exact ⟨[], performs_nothing honce hopen 1 _⟩

lemma performs_deleteInnerConditional (hpending : s.pending = []) (hopen : s.failedClosed = false)
    (key : Key) (condition : EraseCondition) :
    ∃ ops, Performs s (deleteInnerConditional s key condition).1 [.erase key] ops := by
  have honce : StagedOnce s.pending := by rw [hpending]; exact nodup_nil
  simp only [deleteInnerConditional, VersionedMap.eraseConditional]
  by_cases hallow : condition.allows (s.art.lookup key) = true
  · simp only [hallow, if_true]
    exact ⟨_, performs_direct hpending hopen rfl rfl (le_refl 1) ⟨trivial, trivial⟩ rfl⟩
  · simp only [hallow, Bool.false_eq_true, if_false]
    exact ⟨[], performs_nothing honce hopen 1 _⟩

/-- A rename that is not refused finds its source, and its destination free. -/
lemma accepted_rename {src dst : Key} {force : Bool} {record : Record}
    (hsrc : m.lookup src = some record) (hdst : ¬ (force = false ∧ (m.lookup dst).isSome = true)) :
    Accepted (mapValues m) (.rename src dst force) := by
  constructor
  · rw [mapValues, hsrc]
    exact some_ne_none _
  · intro _ hf
    have hnone : ¬ (m.lookup dst).isSome = true := fun h => hdst ⟨hf, h⟩
    simpa [mapValues] using hnone

lemma performs_renameSection (hpending : s.pending = []) (hopen : s.failedClosed = false)
    (src dst : Key) (force : Bool) :
    ∃ ops, Performs s (renameSection s src dst force).1 [.rename src dst force] ops := by
  have honce : StagedOnce s.pending := by rw [hpending]; exact nodup_nil
  simp only [renameSection]
  cases hsrc : s.art.lookup src with
  | none => exact ⟨[], performs_nothing honce hopen 1 _⟩
  | some record =>
    simp only
    split_ifs with heq hdst
    · exact ⟨[], performs_nothing honce hopen 1 _⟩
    · exact ⟨[], performs_nothing honce hopen 1 _⟩
    · refine ⟨_, performs_direct hpending hopen rfl rfl (le_refl 1)
        ⟨accepted_rename hsrc hdst, trivial⟩ ?_⟩
      simp only [VersionedMap.insertConditional_always, VersionedMap.eraseConditional_always_fst]
      simp [walOps, perform, heq, hsrc]

/-- The operations of a batch record. -/
def numbered (seq : ℕ) (ops : List WalOp) : List (ℕ × WalOp) := (ops.zipIdx seq).map Prod.swap

lemma map_fst_numbered (seq : ℕ) (ops : List WalOp) :
    (numbered seq ops).map Prod.fst = List.range' seq ops.length := by
  rw [numbered, List.map_map]
  exact zipIdx_map_snd seq ops

variable {seq : ℕ}

lemma applyBatchOp_performs {art' : VersionedMap} {op : BatchOp} {logged : List WalOp}
    (happ : applyBatchOp art seq op = (art', .ok logged)) :
    logged = batchOpLogs op ∧ op.nextSeq seq = seq + logged.length ∧
      art' = (numbered seq logged).foldl perform art ∧ AllAccepted (mapValues art) logged := by
  cases op with
  | put key value =>
    obtain ⟨rfl, rfl⟩ := by simpa [applyBatchOp] using happ
    exact ⟨rfl, rfl, rfl, trivial, trivial⟩
  | putIfAbsent key value | compareAndPut key expected value =>
    simp only [applyBatchOp, VersionedMap.insertConditional] at happ
    split_ifs at happ with hallow
    · obtain ⟨rfl, rfl⟩ := by simpa using happ
      exact ⟨rfl, rfl, rfl, trivial, trivial⟩
    · simp at happ
  | delete key =>
    simp only [applyBatchOp, VersionedMap.eraseConditional_always_fst] at happ
    obtain ⟨rfl, rfl⟩ := by simpa using happ
    exact ⟨rfl, rfl, rfl, trivial, trivial⟩
  | deleteIfVersion key expected =>
    simp only [applyBatchOp, VersionedMap.eraseConditional] at happ
    split_ifs at happ with hallow
    · obtain ⟨rfl, rfl⟩ := by simpa using happ
      exact ⟨rfl, rfl, rfl, trivial, trivial⟩
    · simp at happ
  | assertVersion key expected | assertAbsent key | assertPrefixEmpty pre =>
    obtain ⟨rfl, rfl⟩ := by simpa [applyBatchOp] using happ
    exact ⟨rfl, rfl, rfl, trivial⟩
  | rename src dst force =>
    simp only [applyBatchOp] at happ
    cases hsrc : art.lookup src with
    | none => simp [hsrc] at happ
    | some record =>
      simp only [hsrc] at happ
      split_ifs at happ with heq hdst
      · obtain ⟨rfl, rfl⟩ := by simpa using happ
        refine ⟨rfl, rfl, by simp [numbered, perform, heq], ⟨?_, fun hne => absurd heq hne⟩,
          trivial⟩
        rw [mapValues, hsrc]
        exact some_ne_none _
      · simp at happ
      · simp only [VersionedMap.insertConditional_always,
          VersionedMap.eraseConditional_always_fst] at happ
        obtain ⟨rfl, rfl⟩ := by simpa using happ
        exact ⟨rfl, rfl, by simp [numbered, perform, heq, hsrc], accepted_rename hsrc hdst, trivial⟩

lemma foldl_perform_numbered_append (m : VersionedMap) (seq : ℕ) (xs ys : List WalOp) :
    (numbered seq (xs ++ ys)).foldl perform m =
      (numbered (seq + xs.length) ys).foldl perform ((numbered seq xs).foldl perform m) := by
  rw [numbered, zipIdx_append, map_append, foldl_append]
  rfl

lemma map_snd_numbered (seq : ℕ) (ops : List WalOp) : (numbered seq ops).map Prod.snd = ops :=
  map_snd_swap_zipIdx ops seq

lemma applyBatchWalkerInline_performs {art' : VersionedMap} {ops : List BatchOp}
    {logged : List WalOp} (happ : applyBatchWalkerInline art seq ops = (art', .ok logged)) :
    logged = ops.flatMap batchOpLogs ∧ logged.length = batchCount ops ∧
      art' = (numbered seq logged).foldl perform art ∧ AllAccepted (mapValues art) logged := by
  induction ops generalizing art seq logged with
  | nil =>
    obtain ⟨rfl, rfl⟩ := by simpa [applyBatchWalkerInline] using happ
    exact ⟨rfl, rfl, rfl, trivial⟩
  | cons op rest ih =>
    simp only [applyBatchWalkerInline] at happ
    rcases hop : applyBatchOp art seq op with ⟨art₁, e | first⟩
    · simp [hop] at happ
    · simp only [hop] at happ
      rcases hrest : applyBatchWalkerInline art₁ (op.nextSeq seq) rest with ⟨art₂, e | more⟩
      · simp [hrest] at happ
      · simp only [hrest, Prod.mk.injEq, Except.ok.injEq] at happ
        obtain ⟨rfl, rfl⟩ := happ
        obtain ⟨hlogs, hnext, hart, hacc⟩ := applyBatchOp_performs hop
        obtain ⟨hlogs', hcount, hart', hacc'⟩ := ih hrest
        have hvalues := @mapValues_foldl_perform art (numbered seq first)
          (by rw [map_snd_numbered]; exact hacc)
        rw [map_snd_numbered, ← hart] at hvalues
        refine ⟨by rw [hlogs, hlogs', flatMap_cons], ?_, ?_, ?_⟩
        · have hone : op.nextSeq seq = seq + (if op.emitsWal then 1 else 0) := by
            unfold BatchOp.nextSeq
            split_ifs <;> rfl
          rw [length_append, hcount, batchCount, batchCount, countP_cons]
          omega
        · rw [foldl_perform_numbered_append, ← hnext, ← hart, hart']
        · exact allAccepted_append hacc (hvalues ▸ hacc')

/-- With nothing staged, a batch that passes its checks is applied without an error. -/
lemma applyBatchWalkerInline_of_spec {ops : List BatchOp}
    (hspec : specBatch art seq ops = .ok (some m)) :
    ∃ logged, applyBatchWalkerInline art seq ops = (m, .ok logged) := by
  induction ops generalizing art seq with
  | nil =>
    obtain rfl : art = m := by simpa [specBatch] using hspec
    exact ⟨[], rfl⟩
  | cons op rest ih =>
    rcases hop : specBatchOp art seq op with e | _ | m₁
    · simp [specBatch, hop] at hspec
    · simp [specBatch, hop] at hspec
    · simp only [specBatch, hop] at hspec
      obtain ⟨more, hmore⟩ := ih hspec
      obtain ⟨logged, happ⟩ := applyBatchOp_of_spec hop
      exact ⟨logged ++ more, by simp only [applyBatchWalkerInline, happ, hmore]⟩

lemma performs_applyBatch (hpending : s.pending = []) (hopen : s.failedClosed = false)
    (ops : List BatchOp) :
    ∃ done, Performs s (applyBatch s ops).1 (ops.flatMap batchOpLogs) done := by
  have honce : StagedOnce s.pending := by rw [hpending]; exact nodup_nil
  have hpre : preflightBatch s.art s.pending s.nextSeq ops =
      (specBatch s.art s.nextSeq ops).map Option.isSome := by
    have hspec := @preflightBatch_eq s.art s.pending honce s.nextSeq ops (by simp [hpending])
    rwa [hpending] at hspec ⊢
  simp only [applyBatch, hpre]
  rcases hspec : specBatch s.art s.nextSeq ops with e | _ | m
  · exact ⟨[], performs_nothing honce hopen _ _⟩
  · exact ⟨[], performs_nothing honce hopen _ _⟩
  · simp only [Except.map, isSome_some]
    split_ifs with hcount
    · exact ⟨[], performs_nothing honce hopen _ _⟩
    · obtain ⟨logged, happ⟩ := applyBatchWalkerInline_of_spec hspec
      obtain ⟨hlogs, hlen, hart, hacc⟩ := applyBatchWalkerInline_performs happ
      have hops : walOps [.batch s.nextSeq logged] = numbered s.nextSeq logged :=
        append_nil _
      simp only [happ]
      subst hlogs
      refine ⟨_, performs_direct hpending hopen ?_ ?_ hlen.le hacc ?_⟩
      · rw [hops, map_snd_numbered]
      · rw [hops, map_fst_numbered]
      · rw [hops, hart]

/-- What a call does. -/
theorem performs_runCall (h : StagedOnce s.pending) (hopen : s.failedClosed = false) (op : Op) :
    ∃ s₁ ops, (s₁ = s ∨ s₁ = flushWriteDelta s) ∧ Performs s₁ (runCall s op).1 (opLogs op) ops := by
  have hflush : (flushWriteDelta s).failedClosed = false := hopen
  cases op with
  | put key value =>
    have hrun : runCall s (.put key value) = putDeferred s key value := by
      simp [runCall, runSection, Op.flushesFirst, hopen]
    rw [hrun]
    exact ⟨s, [(s.nextSeq, .insert key value)], .inl rfl,
      performs_staged h hopen nofun (fun m => rfl)⟩
  | delete key =>
    have hrun : runCall s (.delete key) = deleteDeferred s key := by
      simp [runCall, runSection, Op.flushesFirst, hopen]
    rw [hrun, deleteDeferred]
    split_ifs
    · exact ⟨s, [], .inl rfl, performs_nothing h hopen 0 _⟩
    · have hdelete : ∀ m : VersionedMap, applyDeltaOp m ⟨key, .delete s.nextSeq⟩ =
          perform m (s.nextSeq, .erase key) :=
        fun m => VersionedMap.eraseConditional_always_fst m key
      exact ⟨s, _, .inl rfl, performs_staged h hopen nofun hdelete⟩
  | putIfAbsent key value | compareAndPut key expected value =>
    obtain ⟨ops, hops⟩ := performs_putInnerConditional
      (s := flushWriteDelta s) rfl hflush key value _
    refine ⟨_, ops, .inr rfl, ?_⟩
    simpa [runCall, runSection, Op.flushesFirst, opLogs, hopen, hflush] using hops
  | deleteIfVersion key expected =>
    obtain ⟨ops, hops⟩ := performs_deleteInnerConditional (s := flushWriteDelta s) rfl hflush key _
    refine ⟨_, ops, .inr rfl, ?_⟩
    simpa [runCall, runSection, Op.flushesFirst, opLogs, hopen, hflush] using hops
  | rename src dst force =>
    obtain ⟨ops, hops⟩ := performs_renameSection (s := flushWriteDelta s) rfl hflush src dst force
    refine ⟨_, ops, .inr rfl, ?_⟩
    simpa [runCall, runSection, Op.flushesFirst, opLogs, hopen, hflush] using hops
  | atomic ops =>
    cases ops with
    | nil => exact ⟨s, [], .inl rfl, performs_nothing h hopen 0 _⟩
    | cons op rest =>
      obtain ⟨done, hdone⟩ := performs_applyBatch (s := flushWriteDelta s) rfl hflush (op :: rest)
      refine ⟨_, done, .inr rfl, ?_⟩
      simpa [runCall, runSection, Op.flushesFirst, opLogs, hopen, hflush] using hdone

end Calls

end Checkpoint
end Holt
