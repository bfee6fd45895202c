import Holt.Tree.BatchRecord

/-!
# Replay of a batch

A batch is applied to a live tree by `apply_batch_walker_inline` and, after a crash, by
`replay_wal` from its record.  The two interpret the same operations in different ways: what was
a conditional insert is a plain one in the record, and where the live tree leaves a rename of a
key onto itself alone, replay erases the key and inserts it again under the number of the rename.

`Tracks` relates the two trees while they go through the batch: they agree on every key but those
whose last operation is such a forced rename (`staleRename`), where replay has the same value
under the number of the rename.  `replayFile_batchRecord` is what replay makes of a record with
one batch, and `batch_replay_iff` says when it is what the batch did.
-/

namespace Holt

namespace Journal

def PrimitiveOp.treeId : PrimitiveOp → UInt64
  | .insert treeId _ _ | .erase treeId _ | .renameObject treeId _ _ _ => treeId

/-- The operation on the tree it names. -/
def PrimitiveOp.redo : PrimitiveOp → Tree.WalOp
  | .insert _ key value => .insert key value
  | .erase _ key => .erase key
  | .renameObject _ src dst force => .rename src dst force

end Journal

namespace Tree

open Function List Option Journal

/-- The callback of `replay_wal`: an operation is applied to the tree it names. -/
def redo : Callback (UInt64 → VersionedMap) Empty := fun op seq _ trees =>
  .ok (Function.update trees op.treeId (replayOp (trees op.treeId) seq.toNat op.redo))

/-- `replay_wal` on a file. -/
def replayFile (crc : List Byte → UInt32) (bytes : List Byte) (trees : UInt64 → VersionedMap) :
    Except (ReplayError Empty) (UInt64 → VersionedMap) :=
  (replayBytes crc redo bytes trees).map (fun res => res.2.2)

/-! ## The condition -/

/-- The operation replaces or removes the record of the key. -/
def BatchOp.rewrites (key : Key) : BatchOp → Bool
  | .put k _ | .putIfAbsent k _ | .compareAndPut k _ _ | .delete k | .deleteIfVersion k _ =>
    key = k
  | .rename src dst _ => src ≠ dst ∧ (key = src ∨ key = dst)
  | .assertVersion _ _ | .assertAbsent _ | .assertPrefixEmpty _ => false

/-- The key that a forced rename puts where it is. -/
def BatchOp.selfKey : BatchOp → Option Key
  | .rename src dst true => if src = dst then some src else none
  | _ => none

/-- The number of the last operation that rewrites the key, after those before. -/
def lastRewrite (key : Key) : ℕ → List BatchOp → Option ℕ → Option ℕ
  | _, [], last => last
  | seq, op :: rest, last =>
    lastRewrite key (op.nextSeq seq) rest (if op.rewrites key then some seq else last)

/-- The number of the last forced rename of the key onto itself that no operation of the batch
follows up with a rewrite of the key. -/
def staleRename (key : Key) : ℕ → List BatchOp → Option ℕ → Option ℕ
  | _, [], last => last
  | seq, op :: rest, last =>
    staleRename key (op.nextSeq seq) rest
      (if op.rewrites key then none else if op.selfKey = some key then some seq else last)

/-- Every forced rename of a key onto itself is followed by an operation of the batch that
rewrites the key, unless its number is the version the key has anyway. -/
def Settled (m : VersionedMap) (base : ℕ) (ops : List BatchOp) : Prop :=
  ∀ key ∈ ops.filterMap BatchOp.selfKey, ∀ seq ∈ staleRename key base ops none,
    (lastRewrite key base ops none).or ((m.lookup key).map Record.version) = some seq

instance (m : VersionedMap) (base : ℕ) (ops : List BatchOp) : Decidable (Settled m base ops) :=
  inferInstanceAs (Decidable (∀ key ∈ ops.filterMap BatchOp.selfKey,
    ∀ seq ∈ staleRename key base ops none, _ = _))

/-! ## Live tree and replayed tree -/

/-- The live tree and the replayed one, `m` being what both started from.  `rewrite` and `stale`
are the numbers of `lastRewrite` and `staleRename` so far. -/
structure Tracks (m live replayed : VersionedMap) (rewrite stale : Key → Option ℕ) : Prop where
  version : ∀ key r, live.lookup key = some r →
    (rewrite key).or ((m.lookup key).map Record.version) = some r.version
  agree : ∀ key, stale key = none → replayed.lookup key = live.lookup key
  renamed : ∀ key seq, stale key = some seq → ∃ r, live.lookup key = some r ∧
    replayed.lookup key = some ⟨r.value, seq⟩

section Tracks

variable {m live replayed : VersionedMap} {rewrite stale : Key → Option ℕ}

lemma tracks_refl (m : VersionedMap) : Tracks m m m (fun _ => none) (fun _ => none) where
  version key r hr := by
    rw [hr]
    rfl
  agree _ _ := rfl
  renamed _ _ h := by cases h

variable (h : Tracks m live replayed rewrite stale)
include h

lemma Tracks.value (key : Key) :
    (replayed.lookup key).map Record.value = (live.lookup key).map Record.value := by
  cases hstale : stale key with
  | none => rw [h.agree key hstale]
  | some seq =>
    obtain ⟨r, hlive, hreplayed⟩ := h.renamed key seq hstale
    rw [hlive, hreplayed]
    rfl

lemma Tracks.isSome (key : Key) :
    (replayed.lookup key).isSome = (live.lookup key).isSome := by
  have hvalue := congrArg Option.isSome (h.value key)
  rwa [isSome_map, isSome_map] at hvalue

/-- Both trees get the same record, or none, at a key. -/
lemma Tracks.write {key : Key} {seq : ℕ} {entry : Option Record}
    (hentry : ∀ r ∈ entry, r.version = seq) {live' replayed' : VersionedMap}
    (hlive : ∀ k, live'.lookup k = if k = key then entry else live.lookup k)
    (hreplayed : ∀ k, replayed'.lookup k = if k = key then entry else replayed.lookup k) :
    Tracks m live' replayed' (update rewrite key (some seq))
      (update stale key none) where
  version k r hr := by
    rw [hlive] at hr
    by_cases hk : k = key
    · rw [if_pos hk] at hr
      rw [hk, update_self, some_or, hentry r hr]
    · rw [if_neg hk] at hr
      rw [update_of_ne hk]
      exact h.version k r hr
  agree k hk := by
    rw [hlive, hreplayed]
    by_cases hkey : k = key
    · rw [if_pos hkey, if_pos hkey]
    · rw [update_of_ne hkey] at hk
      rw [if_neg hkey, if_neg hkey]
      exact h.agree k hk
  renamed k s hk := by
    by_cases hkey : k = key
    · rw [hkey, update_self] at hk
      cases hk
    · rw [update_of_ne hkey] at hk
      rw [hlive, hreplayed, if_neg hkey, if_neg hkey]
      exact h.renamed k s hk

lemma Tracks.insert (key : Key) (value : Value) (seq : ℕ) :
    Tracks m (live.insert key ⟨value, seq⟩) (replayed.insert key ⟨value, seq⟩)
      (update rewrite key (some seq)) (update stale key none) :=
  h.write (by simp) (live.lookup_insert_eq key · _) (replayed.lookup_insert_eq key · _)

lemma Tracks.erase (key : Key) (seq : ℕ) :
    Tracks m (live.erase key) (replayed.erase key)
      (update rewrite key (some seq)) (update stale key none) :=
  h.write (by simp) (live.lookup_erase_eq key) (replayed.lookup_erase_eq key)

variable {key : Key}

lemma Tracks.selfRename {r : Record} (hr : live.lookup key = some r) (seq : ℕ) :
    Tracks m live ((replayed.erase key).insert key ⟨r.value, seq⟩) rewrite
      (update stale key (some seq)) where
  version := h.version
  agree k hk := by
    by_cases hkey : k = key
    · rw [hkey, update_self] at hk
      cases hk
    · rw [update_of_ne hkey] at hk
      rw [VersionedMap.lookup_insert_eq, if_neg hkey, VersionedMap.lookup_erase_eq, if_neg hkey]
      exact h.agree k hk
  renamed k s hk := by
    by_cases hkey : k = key
    · rw [hkey, update_self, Option.some.injEq] at hk
      rw [hkey, ← hk, VersionedMap.lookup_insert_eq, if_pos rfl]
      exact ⟨r, hr, rfl⟩
    · rw [update_of_ne hkey] at hk
      rw [VersionedMap.lookup_insert_eq, if_neg hkey, VersionedMap.lookup_erase_eq, if_neg hkey]
      exact h.renamed k s hk

/-- The numbers after an operation. -/
def BatchOp.nextRewrite (op : BatchOp) (seq : ℕ) (rewrite : Key → Option ℕ) : Key → Option ℕ :=
  fun key => if op.rewrites key then some seq else rewrite key

def BatchOp.nextStale (op : BatchOp) (seq : ℕ) (stale : Key → Option ℕ) : Key → Option ℕ :=
  fun key => if op.rewrites key then none
    else if op.selfKey = some key then some seq else stale key

variable {op : BatchOp}

omit h

lemma nextRewrite_key (h : ∀ k, op.rewrites k = decide (k = key)) (seq : ℕ)
    (rewrite : Key → Option ℕ) :
    op.nextRewrite seq rewrite = update rewrite key (some seq) := by
  funext k
  by_cases hk : k = key
  · simp [BatchOp.nextRewrite, h, hk]
  · simp [BatchOp.nextRewrite, h, hk]

lemma nextStale_key (h : ∀ k, op.rewrites k = decide (k = key)) (hself : op.selfKey = none)
    (seq : ℕ) (stale : Key → Option ℕ) :
    op.nextStale seq stale = update stale key none := by
  funext k
  by_cases hk : k = key
  · simp [BatchOp.nextStale, h, hk]
  · simp [BatchOp.nextStale, h, hk, hself]

lemma nextRewrite_assert (h : ∀ k, op.rewrites k = false) (seq : ℕ) (rewrite : Key → Option ℕ) :
    op.nextRewrite seq rewrite = rewrite := by
  funext k
  simp [BatchOp.nextRewrite, h]

lemma nextStale_assert (h : ∀ k, op.rewrites k = false) (hself : op.selfKey = none) (seq : ℕ)
    (stale : Key → Option ℕ) : op.nextStale seq stale = stale := by
  funext k
  simp [BatchOp.nextStale, h, hself]

include h

variable {seq : ℕ} {live' : VersionedMap} {logged : List WalOp}

lemma Tracks.insertOp {item : Key × Value} (hitem : op.insertParts = some item)
    (happ : applyBatchOp live seq op = (live', .ok logged)) :
    Tracks m live' (replayBatch replayed seq op.logged) (op.nextRewrite seq rewrite)
      (op.nextStale seq stale) := by
  have hkey : ∀ k, op.rewrites k = decide (k = item.1) := by
    cases op with
    | put key value | putIfAbsent key value | compareAndPut key expected value =>
      cases hitem
      exact fun k => rfl
    | _ => exact absurd hitem nofun
  have hself : op.selfKey = none := by
    cases op with
    | rename src dst force => exact absurd hitem nofun
    | _ => rfl
  obtain ⟨condition, -, hop⟩ := applyBatchOp_insert live seq hitem
  rw [BatchOp.logged_of_insertParts hitem, nextRewrite_key hkey, nextStale_key hkey hself]
  rw [hop, VersionedMap.insertConditional] at happ
  by_cases hallows : condition.allows (live.lookup item.1) = true
  · rw [if_pos hallows] at happ
    cases happ
    exact h.insert item.1 item.2 seq
  · rw [if_neg hallows] at happ
    cases (Prod.mk.inj happ).2

lemma Tracks.eraseOp (hlogged : op.logged = [.erase key])
    (hkey : ∀ k, op.rewrites k = decide (k = key)) (hself : op.selfKey = none) :
    Tracks m (live.erase key) (replayBatch replayed seq op.logged) (op.nextRewrite seq rewrite)
      (op.nextStale seq stale) := by
  rw [hlogged, nextRewrite_key hkey, nextStale_key hkey hself]
  simp only [replayBatch, replayOp, VersionedMap.eraseConditional_always_fst]
  exact h.erase key seq

lemma Tracks.renameOp {src dst : Key} {force : Bool}
    (happ : applyBatchOp live seq (.rename src dst force) = (live', .ok logged)) :
    Tracks m live' (replayBatch replayed seq [.rename src dst force])
      (BatchOp.nextRewrite (.rename src dst force) seq rewrite)
      (BatchOp.nextStale (.rename src dst force) seq stale) := by
  simp only [applyBatchOp] at happ
  cases hsrc : live.lookup src with
  | none =>
    rw [hsrc] at happ
    cases (Prod.mk.inj happ).2
  | some r =>
    rw [hsrc] at happ
    -- replay finds the source with the same value
    obtain ⟨r', hr', hvalue⟩ : ∃ r', replayed.lookup src = some r' ∧ r'.value = r.value := by
      have hsame := h.value src
      rw [hsrc] at hsame
      exact map_eq_some_iff.mp hsame
    dsimp only at happ
    split_ifs at happ with heq hexists
    · -- onto itself
      cases happ
      subst heq
      have hkeep : ∀ k, BatchOp.rewrites k (.rename src src force) = false := by
        intro k
        simp [BatchOp.rewrites]
      rw [nextRewrite_assert hkeep]
      cases force with
      | false =>
        rw [nextStale_assert hkeep rfl]
        have hskip : replayBatch replayed seq [.rename src src false] = replayed := by
          simp [replayBatch, replayOp, hr']
        rw [hskip]
        exact h
      | true =>
        have hstale : BatchOp.nextStale (.rename src src true) seq stale =
            update stale src (some seq) := by
          funext k
          by_cases hk : k = src
          · simp [BatchOp.nextStale, hkeep, BatchOp.selfKey, hk]
          · simp [BatchOp.nextStale, hkeep, BatchOp.selfKey, hk, Ne.symm hk]
        rw [hstale, replayBatch, replayBatch, replayOp_rename seq hr' (by simp), hvalue]
        exact h.selfRename hsrc seq
    · cases (Prod.mk.inj happ).2
    · cases happ
      have hfree : ¬ (force = false ∧ (replayed.lookup dst).isSome = true) := by
        rw [h.isSome dst]
        exact hexists
      have hrewrite : BatchOp.nextRewrite (.rename src dst force) seq rewrite =
          update (update rewrite src (some seq)) dst (some seq) := by
        funext k
        by_cases hd : k = dst
        · simp [BatchOp.nextRewrite, BatchOp.rewrites, heq, hd]
        · by_cases hs : k = src
          · simp [BatchOp.nextRewrite, BatchOp.rewrites, heq, hs]
          · simp [BatchOp.nextRewrite, BatchOp.rewrites, hd, hs]
      have hstale : BatchOp.nextStale (.rename src dst force) seq stale =
          update (update stale src none) dst none := by
        have hself : BatchOp.selfKey (.rename src dst force) = none := by
          cases force with
          | false => rfl
          | true => exact if_neg heq
        funext k
        by_cases hd : k = dst
        · simp [BatchOp.nextStale, BatchOp.rewrites, heq, hd]
        · by_cases hs : k = src
          · simp [BatchOp.nextStale, BatchOp.rewrites, heq, hs]
          · simp [BatchOp.nextStale, BatchOp.rewrites, hd, hs, hself]
      rw [hrewrite, hstale, replayBatch, replayBatch, replayOp_rename seq hr' hfree, hvalue,
        VersionedMap.insertConditional_always, VersionedMap.eraseConditional_always_fst]
      exact (h.erase src seq).insert dst r.value seq

lemma Tracks.step (happ : applyBatchOp live seq op = (live', .ok logged)) :
    Tracks m live' (replayBatch replayed seq op.logged) (op.nextRewrite seq rewrite)
      (op.nextStale seq stale) := by
  cases op with
  | put key value | putIfAbsent key value | compareAndPut key expected value =>
    exact h.insertOp rfl happ
  | delete key =>
    cases happ
    rw [VersionedMap.eraseConditional_always_fst]
    exact h.eraseOp rfl (fun _ => rfl) rfl
  | deleteIfVersion key expected =>
    rw [applyBatchOp, VersionedMap.eraseConditional] at happ
    by_cases hallows : (EraseCondition.ifVersion expected).allows (live.lookup key) = true
    · rw [if_pos hallows] at happ
      cases happ
      exact h.eraseOp rfl (fun _ => rfl) rfl
    · rw [if_neg hallows] at happ
      cases (Prod.mk.inj happ).2
  | assertVersion key expected | assertAbsent key | assertPrefixEmpty pre =>
    cases happ
    rw [nextRewrite_assert (fun _ => rfl), nextStale_assert (fun _ => rfl) rfl]
    exact h
  | rename src dst force => exact h.renameOp happ

variable {ops : List BatchOp}

lemma Tracks.run (happ : applyBatchWalkerInline live seq ops = (live', .ok logged)) :
    Tracks m live' (replayBatch replayed seq (ops.flatMap BatchOp.logged))
      (fun key => lastRewrite key seq ops (rewrite key))
      (fun key => staleRename key seq ops (stale key)) := by
  induction ops generalizing live replayed rewrite stale seq logged with
  | nil =>
    cases happ
    exact h
  | cons op ops ih =>
    rw [applyBatchWalkerInline] at happ
    rcases hop : applyBatchOp live seq op with ⟨live₁, e | first⟩
    · rw [hop] at happ
      cases (Prod.mk.inj happ).2
    · rw [hop] at happ
      dsimp only at happ
      rcases hrest : applyBatchWalkerInline live₁ (op.nextSeq seq) ops with ⟨live₂, e | more⟩
      · rw [hrest] at happ
        cases (Prod.mk.inj happ).2
      · rw [hrest] at happ
        cases happ
        rw [flatMap_cons, replayBatch_append, ← BatchOp.nextSeq_eq]
        exact ih (h.step hop) hrest

omit h

/-- Where a forced rename onto itself is the last word on a key, there is one in the batch. -/
lemma mem_of_staleRename {s : ℕ} {last : Option ℕ} (h : staleRename key seq ops last = some s) :
    key ∈ ops.filterMap BatchOp.selfKey ∨ last = some s := by
  induction ops generalizing seq last with
  | nil => exact .inr h
  | cons op ops ih =>
    rw [staleRename] at h
    obtain hmem | hlast := ih h
    · left
      rw [mem_filterMap] at hmem ⊢
      obtain ⟨o, ho, hself⟩ := hmem
      exact ⟨o, mem_cons_of_mem _ ho, hself⟩
    · split_ifs at hlast with hrewrites hself
      · exact .inl (mem_filterMap.mpr ⟨op, mem_cons_self, hself⟩)
      · exact .inr hlast

/-- The replay of the logged operations is what the batch did exactly if it is settled. -/
lemma replayBatch_eq_iff (happ : applyBatchWalkerInline m seq ops = (live', .ok logged)) :
    replayBatch m seq (ops.flatMap BatchOp.logged) = live' ↔ Settled m seq ops := by
  have htracks := (tracks_refl m).run happ
  constructor
  · intro heq key hkey s hs
    obtain ⟨r, hlive, hreplayed⟩ := htracks.renamed key s hs
    rw [heq, hlive, Option.some.injEq] at hreplayed
    have hversion := htracks.version key r hlive
    rw [hversion, congrArg Record.version hreplayed]
  · intro hsettled
    refine Finmap.ext_lookup (fun key => ?_)
    cases hstale : staleRename key seq ops none with
    | none => exact htracks.agree key hstale
    | some s =>
      obtain ⟨r, hlive, hreplayed⟩ := htracks.renamed key s hstale
      have hkey := (mem_of_staleRename hstale).resolve_right nofun
      have hversion := htracks.version key r hlive
      have hsame := (hsettled key hkey s hstale).symm.trans hversion
      rw [hreplayed, hlive, Option.some.inj hsame]

end Tracks

/-! ## Replay of the record -/

section Files

variable {crc : List Byte → UInt32} {hd : List Byte} {header : FileHeader} {treeId : UInt64}

variable {base : ℕ}

/-- The operations of one tree, numbered from `base + k` on. -/
lemma callOps_redo (treeId : UInt64) (logged : List WalOp) {k : ℕ}
    (hseq : base + k + logged.length ≤ 2 ^ 64) (st : ReplayState (UInt64 → VersionedMap)) :
    ∃ st', callOps redo (((logged.map (WalOp.primitive treeId)).zipIdx k).map (fun op =>
        (op.1, UInt64.ofNat base + UInt64.ofNat op.2))) st = .ok st' ∧
      st'.out = update st.out treeId
        (replayBatch (st.out treeId) (base + k) logged) := by
  induction logged generalizing k st with
  | nil => exact ⟨st, rfl, by rw [replayBatch, update_eq_self]⟩
  | cons op logged ih =>
    have hnumber : (UInt64.ofNat base + UInt64.ofNat k).toNat = base + k := by
      rw [length_cons] at hseq
      rw [UInt64.toNat_add, UInt64.toNat_ofNat', UInt64.toNat_ofNat',
        Nat.mod_eq_of_lt (by omega : base < 2 ^ 64), Nat.mod_eq_of_lt (by omega : k < 2 ^ 64),
        Nat.mod_eq_of_lt (by omega)]
    have hop : redo (op.primitive treeId) (UInt64.ofNat base + UInt64.ofNat k) st.offset st.out =
        .ok (update st.out treeId (replayOp (st.out treeId) (base + k) op)) := by
      cases op with
      | insert key value | rename src dst force =>
        simp only [redo, WalOp.primitive, PrimitiveOp.treeId,
          PrimitiveOp.redo, hnumber]
      | erase key => simp only [redo, WalOp.primitive, PrimitiveOp.treeId, PrimitiveOp.redo,
          hnumber]
    obtain ⟨st', hrest, hout⟩ := ih (k := k + 1) (by rw [length_cons] at hseq; omega)
      (st.observe (UInt64.ofNat base + UInt64.ofNat k)
        (update st.out treeId (replayOp (st.out treeId) (base + k) op)))
    refine ⟨st', ?_, ?_⟩
    · rw [map_cons, zipIdx_cons, map_cons, callOps, hop]
      exact hrest
    · rw [hout]
      simp only [ReplayState.observe, update_self, update_idem]
      rfl

lemma replayFile_batchRecord (hheader : decodeFileHeader crc hd = .ok header)
    (hsize : hd.length = header.recordOffset) (hmode : header.checkpointAnchor = none)
    {pushes : List Push} {logged : List WalOp}
    (hops : pushes.flatMap Push.ops = logged.map (WalOp.primitive treeId))
    (hwritable : (batchRecord treeId base pushes).Writable) (hseq : base + logged.length ≤ 2 ^ 64)
    (trees : UInt64 → VersionedMap) :
    replayFile crc (hd ++ (batchRecord treeId base pushes).written crc) trees =
      .ok (update trees treeId (replayBatch (trees treeId) base logged)) := by
  have hrecord := hwritable.isRecord crc
  rw [← Nat.add_zero base] at hseq
  obtain ⟨st, hcalls, hout⟩ := callOps_redo treeId logged hseq ⟨hd.length, 0, none, trees⟩
  have hdeliver : deliver header redo ⟨hd.length, 0, none, trees⟩
      ((batchRecord treeId base pushes).decoded ((batchRecord treeId base pushes).written crc)) =
        .ok { st with
          recordsSeen := st.recordsSeen + 1
          offset := st.offset + ((batchRecord treeId base pushes).written crc).length } := by
    have hnumbered : numbered (UInt64.ofNat base) (pushes.flatMap Push.ops) =
        ((logged.map (WalOp.primitive treeId)).zipIdx 0).map (fun op =>
          (op.1, UInt64.ofNat base + UInt64.ofNat op.2)) := by
      rw [numbered, hops]
    rw [deliver, if_neg (fun h => Bool.noConfusion h.2), if_neg (by simp [hmode])]
    change (callOps redo (numbered (UInt64.ofNat base) (pushes.flatMap Push.ops)) _).map _ = _
    rw [hnumbered, hcalls]
    rfl
  have hpos := hrecord.pos
  have hloop := @replayLoop_append _ _ crc header redo
    [((batchRecord treeId base pushes).written crc,
      (batchRecord treeId base pushes).decoded ((batchRecord treeId base pushes).written crc))]
    (by simpa using hrecord) []
    (hd.length + ((batchRecord treeId base pushes).written crc).length)
    (by rw [length_singleton]; omega) ⟨hd.length, 0, none, trees⟩
  rw [flatMap_cons, flatMap_nil, append_nil, append_nil] at hloop
  rw [replayFile, replayBytes_header hheader hsize, hloop, map_cons, map_nil,
    foldlM_cons, hdeliver]
  change Except.map _ (Except.map _ (replayLoop crc header redo _ [] _)) = _
  rw [replayLoop_tail (.inl rfl) (Nat.zero_le _)]
  change Except.ok st.out = _
  rw [hout]
  rfl

/-- A batch that its count does not cover ends the replay with an error. -/
lemma replayFile_overfull (hheader : decodeFileHeader crc hd = .ok header)
    (hsize : hd.length = header.recordOffset) {pushes : List Push}
    (hshaped : ∀ p ∈ pushes, p.Shaped) (hruns : (batchRecord treeId base pushes).RunsFit)
    (hbody : (batchRecord treeId base pushes).body.length < 2 ^ 32)
    (hcount : 2 ^ 32 ≤ (pushes.flatMap Push.ops).length) (trees : UInt64 → VersionedMap) :
    ∃ e, replayFile crc (hd ++ (batchRecord treeId base pushes).written crc) trees =
      .error e := by
  obtain ⟨c, herror, hc⟩ :=
    @decodeBody_overfull (batchRecord treeId base pushes) hshaped hruns hbody hcount
  have hdecode : decodeRecord crc ((batchRecord treeId base pushes).written crc) = .error c := by
    have hwhole := decodeRecord_recordBytes crc (batchRecord treeId base pushes).seq tyBatch []
      (batchRecord treeId base pushes).body hbody
    rw [append_nil] at hwhole
    have hrefused : decodeBody tyBatch (batchRecord treeId base pushes).body = .error c := herror
    refine hwhole.trans ?_
    rw [hrefused]
    rfl
  have hreal : isTornTail c.text = false := by
    obtain rfl | rfl | rfl := hc <;> decide
  have hlen : ((batchRecord treeId base pushes).written crc).length =
      recordHeaderSize + (batchRecord treeId base pushes).body.length + recordFooterSize :=
    length_recordBytes _ _ _ _
  obtain ⟨fuel, hfuel⟩ : ∃ fuel,
      hd.length + ((batchRecord treeId base pushes).written crc).length = fuel + 1 := by
    refine Nat.exists_eq_succ_of_ne_zero ?_
    simp only [hlen, recordHeaderSize]
    omega
  have hne : (batchRecord treeId base pushes).written crc ≠ [] := by
    intro hnil
    rw [hnil] at hlen
    simp only [length_nil, recordHeaderSize] at hlen
    omega
  refine ⟨.sanity c hd.length, ?_⟩
  rw [replayFile, replayBytes_header hheader hsize, hfuel, replayLoop, if_neg hne, hdecode]
  dsimp only
  rw [hreal]
  rfl

/-- What `apply_batch` has done when it submitted a record. -/
lemma applyBatchLogged_inv {s s' : Store} {ops : List BatchOp} {record : List Byte}
    (h : applyBatchLogged crc treeId s ops = some (s', .ok (true, some record))) :
    s'.contents = (applyBatchWalkerInline s.contents s.nextSeq ops).1 ∧
      (∃ logged, (applyBatchWalkerInline s.contents s.nextSeq ops).2 = .ok logged) ∧
      (batchRecord treeId s.nextSeq (batchPushes treeId ops.length ops)).encode crc =
        some record := by
  simp only [applyBatchLogged] at h
  cases hpre : preflightBatch (flushWriteDelta s).art (flushWriteDelta s).pending s.nextSeq ops with
  | error e => simp [hpre] at h
  | ok passed =>
    rw [hpre] at h
    cases passed with
    | false => simp at h
    | true =>
      dsimp only at h
      split_ifs at h with hcount
      · simp at h
      · have hart : (flushWriteDelta s).art = s.contents := rfl
        rw [applyBatchWalker_eq treeId _ _ le_rfl, hart] at h
        cases hinline : (applyBatchWalkerInline s.contents s.nextSeq ops).2 with
        | error e =>
          rw [hinline] at h
          simp [Except.map] at h
        | ok logged =>
          rw [hinline] at h
          simp only [Except.map, map_eq_some_iff] at h
          obtain ⟨record', hencode, heq⟩ := h
          simp only [Prod.mk.injEq, Except.ok.injEq, Option.some.injEq, true_and] at heq
          obtain ⟨rfl, rfl⟩ := heq
          exact ⟨rfl, ⟨logged, rfl⟩, hencode⟩

/-- **Replay of a batch.**  On a copy of the tree before a batch, `replay_wal` makes of the
batch's record what the batch made of the live tree, exactly if the record's count holds all of
the operations and every forced rename of a key onto itself is settled by the rest of the
batch. -/
theorem batch_replay_iff {s s' : Store} {ops : List BatchOp} {record : List Byte}
    (hcommit : applyBatchLogged crc treeId s ops = some (s', .ok (true, some record)))
    (hseq : s.nextSeq + batchCount ops ≤ 2 ^ 64) (hheader : decodeFileHeader crc hd = .ok header)
    (hsize : hd.length = header.recordOffset) (hmode : header.checkpointAnchor = none)
    {trees : UInt64 → VersionedMap} (htree : trees treeId = s.contents) :
    replayFile crc (hd ++ record) trees = .ok (Function.update trees treeId s'.contents) ↔
      batchCount ops < 2 ^ 32 ∧ Settled s.contents s.nextSeq ops := by
  obtain ⟨hlive, ⟨logged, hlogged⟩, hencode⟩ := applyBatchLogged_inv hcommit
  have hshaped := shaped_batchPushes treeId ops.length ops
  have hops := ops_batchPushes treeId (le_refl ops.length)
  have hcount : ((batchPushes treeId ops.length ops).flatMap Push.ops).length =
      batchCount ops := by
    rw [hops, length_map, length_flatMap_logged]
  obtain ⟨hruns, hbody, hrecord⟩ :=
    @WalRecord.encode_inv (batchRecord treeId s.nextSeq _) _ _ hshaped hencode
  obtain rfl : record = (batchRecord treeId s.nextSeq
    (batchPushes treeId ops.length ops)).written crc := hrecord
  by_cases hfits : batchCount ops < 2 ^ 32
  · have hwritable : (batchRecord treeId s.nextSeq
        (batchPushes treeId ops.length ops)).Writable :=
      ⟨hshaped, lt_of_eq_of_lt hcount hfits, hbody⟩
    rw [← length_flatMap_logged] at hseq
    rw [replayFile_batchRecord hheader hsize hmode hops hwritable hseq trees, htree, hlive,
      Except.ok.injEq, and_iff_right hfits, ← replayBatch_eq_iff (Prod.ext rfl hlogged)]
    constructor
    · intro h
      have hat := congrFun h treeId
      rwa [update_self, update_self] at hat
    · intro h
      rw [h]
  · obtain ⟨e, herror⟩ := replayFile_overfull hheader hsize hshaped hruns hbody
      (hcount ▸ Nat.not_lt.mp hfits) trees
    rw [herror]
    constructor
    · intro h
      cases h
    · intro h
      exact absurd h.1 hfits

end Files

/-- A tree with two keys. -/
def twoKeys : Store :=
  ⟨(∅ : VersionedMap).insert [97] ⟨[1], 3⟩ |>.insert [98] ⟨[2], 4⟩, [], [], 5, false⟩

/-- A batch that moves a key onto itself and then writes it, with a run of inserts. -/
def settledBatch : List BatchOp :=
  [.assertAbsent [99], .rename [97] [97] true, .put [99] [5], .put [100] [6],
    .compareAndPut [97] 3 [7], .deleteIfVersion [98] 4]

/-- The record a batch on a tree submitted. -/
def submitted (res : Store × Except Error (Bool × Option (List Byte))) : Option (List Byte) :=
  match res.2 with
  | .ok (true, record) => record
  | _ => none

lemma exists_submitted {s : Store} {ops : List BatchOp}
    {P : Store × Except Error (Bool × Option (List Byte)) → Bool}
    (h : (applyBatchLogged (fun _ => 7) 1 s ops).any (fun res => (submitted res).isSome && P res) =
      true) :
    ∃ s' record, applyBatchLogged (fun _ => 7) 1 s ops = some (s', .ok (true, some record)) ∧
      P (s', .ok (true, some record)) = true := by
  obtain ⟨⟨s', out⟩, hcommit, hres⟩ := (Option.any_eq_true _ _).mp h
  rw [Bool.and_eq_true] at hres
  match out, hcommit, hres with
  | .ok (true, some record), hcommit, hres => exact ⟨s', record, hcommit, hres.2⟩
  | .ok (true, none), _, hres => cases hres.1
  | .ok (false, _), _, hres => cases hres.1
  | .error e, _, hres => cases hres.1

theorem batch_replay_settledBatch : ∃ s' record,
    applyBatchLogged (fun _ => 7) 1 twoKeys settledBatch = some (s', .ok (true, some record)) ∧
      replayFile (fun _ => 7) (legacyHeader ++ record) (fun _ => twoKeys.contents) =
        .ok (Function.update (fun _ => twoKeys.contents) 1 s'.contents) := by
  obtain ⟨s', record, hcommit, -⟩ := exists_submitted
    (show (applyBatchLogged (fun _ => 7) 1 twoKeys settledBatch).any
      (fun res => (submitted res).isSome && true) = true by decide +kernel)
  have hheader : decodeFileHeader (fun _ => 7) legacyHeader = .ok ⟨.legacy, 0, 0, none, 0⟩ := by
    decide +kernel
  exact ⟨s', record, hcommit, (batch_replay_iff hcommit (by decide +kernel) hheader
    (by decide +kernel) rfl rfl).mpr ⟨by decide +kernel, by decide +kernel⟩⟩

/-- A batch with nothing but a forced rename of a key onto itself leaves the key's version alone,
and replay of its record gives the key the number of the rename. -/
theorem forced_self_rename_replayed : ∃ s' record,
    applyBatchLogged (fun _ => 7) 1 twoKeys [.rename [97] [97] true] =
        some (s', .ok (true, some record)) ∧
      s'.contents.lookup [97] = some ⟨[1], 3⟩ ∧
      (replayFile (fun _ => 7) (legacyHeader ++ record) (fun _ => twoKeys.contents)).map
        (fun trees => (trees 1).lookup [97]) = .ok (some ⟨[1], 5⟩) := by
  obtain ⟨s', record, hcommit, hres⟩ := exists_submitted
    (show (applyBatchLogged (fun _ => 7) 1 twoKeys [.rename [97] [97] true]).any (fun res =>
      (submitted res).isSome && (decide (res.1.contents.lookup [97] = some ⟨[1], 3⟩) &&
        decide ((replayFile (fun _ => 7) (legacyHeader ++ (submitted res).getD [])
          (fun _ => twoKeys.contents)).map (fun trees => (trees 1).lookup [97]) =
            .ok (some ⟨[1], 5⟩)))) = true by decide +kernel)
  rw [Bool.and_eq_true, decide_eq_true_eq, decide_eq_true_eq] at hres
  exact ⟨s', record, hcommit, hres⟩

end Tree
end Holt
