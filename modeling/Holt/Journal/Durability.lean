import Holt.Journal.RingInvariant

/-!
# Acknowledged records are durable, when submissions count in ring order

`ack_before_append` runs two submissions and the flusher so that the second submission is
acknowledged by an fsync that covers only the first one's bytes: the first is published and
copied before it reaches `queued.fetch_add`, so the second takes the target the first should
have had.

`ack_durable` is the guarantee that remains.  `InByteOrder` asks of every
`queued.fetch_add` that the counter already covers the submissions that precede this one in
the ring.  `Inv` then relates the two counts: a submission's target is above its ring index,
and a published `flushed` value counts records whose bytes lie below the fsync mark.
-/

namespace Holt
namespace Journal

open Option Transition Layout Table

/-! ## A waiter acknowledged without its bytes -/

/-- Two submissions: the first one stops between its ring publish and its
`queued.fetch_add` while the flusher copies it out; the second one is acknowledged by the
fsync that follows. -/
def overtakenCount : List Action :=
  [.reserve [1] true, .fill 0, .ringPublish 0, .readCount, .copyPrefix,
    .reserve [2] true, .fill 1, .ringPublish 1, .countQueued 1, .waitRequest 1,
    .decideSync, .fsync, .publishFlushed, .waitDone 1]

/-- `wait` returns `Ok` for the second record although only the first is in the file. -/
theorem ack_before_append :
    ∃ s, FreePath step (openOrCreate 6 false) overtakenCount s ∧
      ∃ r ∈ s.recs, Acknowledged r ∧ ¬ Durable s r := by
  have hrun : ∃ s, exec step (openOrCreate 6 false) overtakenCount = some s ∧
      ∃ r ∈ s.recs, Acknowledged r ∧ ¬ Durable s r :=
    ⟨_, rfl, ⟨[2], true, ⟨1, 2⟩, .acked 1⟩, by decide, ⟨rfl, 1, rfl⟩, by decide⟩
  obtain ⟨s, hexec, hbad⟩ := hrun
  exact ⟨s, freePath_of_exec hexec, hbad⟩

/-! ## The invariant -/

/-- A submission counts itself only when at least as many submissions are counted as
precede it in the ring. -/
def InByteOrder (s : State) : Action → Prop
  | .countQueued i => s.recordBase + i ≤ s.queued
  | _ => True

instance (s : State) (a : Action) : Decidable (InByteOrder s a) := by
  cases a <;> unfold InByteOrder <;> infer_instance

/-- The flusher's local `writtenTo` counts records that are committed, then in the file,
then below the fsync mark. -/
def FlusherInv (s : State) : Prop :=
  match s.flusher with
  | .idle => True
  | .readCount w => ∃ c ≤ s.ring.committedRecords, w = s.recordBase + c
  | .copied w | .syncing w => ∃ c ≤ s.recs.length, w = s.recordBase + c ∧
      offset (blocks s.recs) c ≤ s.file.length
  | .synced w => ∃ c ≤ s.recs.length, w = s.recordBase + c ∧
      offset (blocks s.recs) c ≤ s.synced

/-- The state of a run whose submissions count in ring order. -/
structure Inv (s : State) : Prop where
  ring : RingInv s.ring s.recs s.file
  synced_le : s.synced ≤ s.file.length
  flusher : FlusherInv s
  flushed : ∀ i, s.recordBase + i + 1 ≤ s.flushed →
    i < s.recs.length ∧ offset (blocks s.recs) (i + 1) ≤ s.synced
  target : ∀ (i : ℕ) (r : Submission) (t : ℕ), s.recs[i]? = some r →
    r.phase.target? = some t → s.recordBase + i + 1 ≤ t
  acked : ∀ (i : ℕ) (r : Submission) (t : ℕ), s.recs[i]? = some r →
    r.phase = .acked t → t ≤ s.flushed

lemma Inv.durable {s : State} (inv : Inv s) {r : Submission} (hr : r ∈ s.recs)
    (hack : Acknowledged r) : Durable s r := by
  obtain ⟨i, hi⟩ := List.mem_iff_getElem?.mp hr
  obtain ⟨-, t, ht⟩ := hack
  have htarget := inv.target i r t hi (by rw [ht]; rfl)
  have hsync := (inv.flushed i (htarget.trans (inv.acked i r t hi ht))).2
  have hstop : r.ticket.stop ≤ s.synced := by
    rw [inv.ring.ticket i r hi]
    exact hsync
  exact ⟨hstop, inv.ring.in_file hi (hstop.trans inv.synced_le)⟩

lemma inv_openOrCreate (bits : ℕ) (hasRecords : Bool) : Inv (openOrCreate bits hasRecords) where
  ring := ringInv_start _ rfl rfl rfl rfl rfl rfl
  synced_le := Nat.zero_le _
  flusher := trivial
  flushed := fun i hi => by
    cases hasRecords <;> simp [openOrCreate] at hi
  target := by simp [openOrCreate]
  acked := by simp [openOrCreate]

/-! ## Steps of `Journal::publish` -/

variable {s s' : State}

/-- The flusher's count survives any step that only adds records. -/
lemma FlusherInv.mono (h : FlusherInv s) (hflusher : s'.flusher = s.flusher)
    (hbase : s'.recordBase = s.recordBase)
    (hcount : s.ring.committedRecords ≤ s'.ring.committedRecords)
    (hlen : s.recs.length ≤ s'.recs.length)
    (hoff : ∀ c ≤ s.recs.length, offset (blocks s'.recs) c = offset (blocks s.recs) c)
    (hfile : s'.file = s.file) (hsynced : s'.synced = s.synced) : FlusherInv s' := by
  unfold FlusherInv at h ⊢
  rw [hflusher, hbase]
  cases hf : s.flusher with
  | idle => trivial
  | readCount w =>
    rw [hf] at h
    obtain ⟨c, hc, hw⟩ := h
    exact ⟨c, hc.trans hcount, hw⟩
  | copied w | syncing w | synced w =>
    rw [hf] at h
    obtain ⟨c, hc, hw, hle⟩ := h
    exact ⟨c, hc.trans hlen, hw, by rw [hoff c hc]; simpa [hfile, hsynced] using hle⟩

lemma Inv.reserve (inv : Inv s) {bytes : List Byte} (sync : Bool) (hpos : 0 < bytes.length)
    (hcap : bytes.length ≤ s.ring.capacity) :
    Inv { s with
      ring := { s.ring with tail := s.ring.tail + bytes.length }
      recs := s.recs ++
        [⟨bytes, sync, ⟨s.ring.tail, s.ring.tail + bytes.length⟩, .reserved⟩] } := by
  have hoff : ∀ c ≤ s.recs.length, offset (blocks (s.recs ++
      [⟨bytes, sync, ⟨s.ring.tail, s.ring.tail + bytes.length⟩, .reserved⟩])) c =
      offset (blocks s.recs) c := by
    intro c hc
    rw [blocks, List.map_append]
    exact offset_append _ _ (by simpa using hc)
  -- only old submissions can have a target
  have hold : ∀ (i : ℕ) (r : Submission), (s.recs ++
      [⟨bytes, sync, ⟨s.ring.tail, s.ring.tail + bytes.length⟩, .reserved⟩])[i]? = some r →
      r.phase ≠ .reserved → s.recs[i]? = some r := by
    intro i r hr hne
    rcases getElem?_append_cases hr with hr | ⟨-, rfl⟩
    · exact hr
    · exact absurd rfl hne
  exact
    { ring := inv.ring.reserve sync hpos hcap
      synced_le := inv.synced_le
      flusher := inv.flusher.mono rfl rfl le_rfl (by simp) hoff rfl rfl
      flushed := fun i hi => by
        obtain ⟨hlt, hle⟩ := inv.flushed i hi
        exact ⟨by simp; omega, by rw [hoff (i + 1) hlt]; exact hle⟩
      target := fun i r t hr ht => inv.target i r t
        (hold i r hr (by rintro h; rw [h] at ht; simp [Phase.target?] at ht)) ht
      acked := fun i r t hr ht => inv.acked i r t (hold i r hr (by rw [ht]; simp)) ht }

/-- A submission that moves to another phase keeps its place; it needs a justification for
the target and the acknowledgement of its new phase only. -/
lemma Inv.setPhase (inv : Inv s) {i : ℕ} {r : Submission} (hr : s.recs[i]? = some r)
    {phase : Phase} (hrecs : s'.recs = s.recs.set i { r with phase := phase })
    (hring : RingInv s'.ring s'.recs s'.file)
    (hcount : s.ring.committedRecords ≤ s'.ring.committedRecords)
    (hsame : (s'.flusher, s'.recordBase, s'.file, s'.synced, s'.flushed) =
      (s.flusher, s.recordBase, s.file, s.synced, s.flushed))
    (htarget : ∀ t, phase.target? = some t → s.recordBase + i + 1 ≤ t)
    (hacked : ∀ t, phase = .acked t → t ≤ s.flushed) : Inv s' := by
  simp only [Prod.mk.injEq] at hsame
  obtain ⟨hflusher, hbase, hfile, hsynced, hflushed⟩ := hsame
  have hblocks : blocks s'.recs = blocks s.recs := by rw [hrecs]; exact blocks_set hr phase
  have hlen : s'.recs.length = s.recs.length := by rw [hrecs, List.length_set]
  refine ⟨hring, by rw [hsynced, hfile]; exact inv.synced_le,
    inv.flusher.mono hflusher hbase hcount hlen.ge (fun c _ => by rw [hblocks]) hfile hsynced,
    ?_, ?_, ?_⟩
  · intro k hk
    rw [hbase, hflushed] at hk
    rw [hlen, hblocks, hsynced]
    exact inv.flushed k hk
  · intro k q t hq ht
    rw [hrecs] at hq
    rw [hbase]
    rcases getElem?_set_cases hq with ⟨rfl, rfl⟩ | ⟨-, hq⟩
    · exact htarget t ht
    · exact inv.target k q t hq ht
  · intro k q t hq ht
    rw [hrecs] at hq
    rw [hflushed]
    rcases getElem?_set_cases hq with ⟨rfl, rfl⟩ | ⟨-, hq⟩
    · exact hacked t ht
    · exact inv.acked k q t hq ht

variable {a : Action}

lemma inv_publishStep (inv : Inv s) (hguard : InByteOrder s a) (hstep : publishStep s a = some s') :
    Inv s' := by
  cases a <;> simp only [publishStep, WalRing.reserve, bind_eq_bind,
    bind_eq_some_iff, reduceCtorEq] at hstep
  case reserve bytes sync =>
    obtain ⟨h, rfl⟩ := guard_eq_some.mp hstep
    exact inv.reserve sync h.1 h.2
  case fill i =>
    obtain ⟨r, hr, hstep⟩ := hstep
    obtain ⟨h, rfl⟩ := guard_eq_some.mp hstep
    have hspace : r.ticket.stop ≤ s.ring.flushCursor + s.ring.capacity := by
      simpa [WalRing.reserveSpaceReady] using h.2
    exact inv.setPhase hr rfl (inv.ring.fill hr h.1 hspace) le_rfl rfl
      nofun nofun
  case ringPublish i =>
    obtain ⟨r, hr, hstep⟩ := hstep
    obtain ⟨h, rfl⟩ := guard_eq_some.mp hstep
    obtain ⟨hring, hcount⟩ := inv.ring.publish hr h
    exact inv.setPhase hr rfl hring hcount rfl nofun nofun
  case countQueued i =>
    obtain ⟨r, hr, hstep⟩ := hstep
    obtain ⟨h, rfl⟩ := guard_eq_some.mp hstep
    refine inv.setPhase hr rfl (inv.ring.rephase hr (by rw [h]; rfl) rfl) le_rfl rfl
      (fun t ht => ?_) nofun
    -- the guard: `queued` already covers the records before this one in the ring
    have hle : s.recordBase + i ≤ s.queued := hguard
    obtain rfl : s.queued + 1 = t := by simpa [Phase.target?] using ht
    omega

/-! ## Steps of `flush_to` -/

lemma inv_flushToStep (inv : Inv s) (hstep : flushToStep s a = some s') : Inv s' := by
  cases a with
  | waitFast i | waitRequest i | waitDone i =>
    simp only [flushToStep, bind_eq_bind, bind_eq_some_iff] at hstep
    obtain ⟨r, hr, hstep⟩ := hstep
    split at hstep <;> try contradiction
    rename_i target hphase
    obtain ⟨h, rfl⟩ := guard_eq_some.mp hstep
    refine inv.setPhase hr rfl (inv.ring.rephase hr (by rw [hphase]; rfl) rfl) le_rfl rfl
      (fun t ht => inv.target i r t hr (by rw [hphase]; exact ht)) ?_
    -- what a wait acknowledges has been flushed
    rintro t ⟨⟩ <;> first | exact h | exact h.2
  | flushUpTo target =>
    cases hstep
    exact { inv with flusher := inv.flusher.mono rfl rfl le_rfl le_rfl (fun _ _ => rfl) rfl rfl }
  | _ => simp [flushToStep] at hstep

/-! ## Steps of the flusher -/

lemma inv_drainStep (inv : Inv s) (hstep : drainStep s a = some s') : Inv s' := by
  have hfl := inv.flusher
  unfold FlusherInv at hfl
  cases a <;> simp only [drainStep, reduceCtorEq] at hstep
  case readCount =>
    obtain ⟨h, rfl⟩ := guard_eq_some.mp hstep
    exact { inv with flusher := ⟨_, le_rfl, rfl⟩ }
  case copyPrefix =>
    split at hstep <;> try contradiction
    rename_i w hf
    rw [hf] at hfl
    cases hstep
    obtain ⟨c, hc, hw⟩ := hfl
    obtain ⟨hring, hlen, hcount⟩ := inv.ring.copy
    refine ⟨hring, inv.synced_le.trans (by simp), ?_, inv.flushed, inv.target, inv.acked⟩
    -- the count read before the copy is at most the count the copy drained
    exact ⟨c, hc.trans inv.ring.bound, hw, (offset_mono _ hc).trans hlen⟩
  case decideSync =>
    split at hstep <;> try contradiction
    rename_i w hf
    rw [hf] at hfl
    split_ifs at hstep with h
    · cases hstep
      exact { inv with flusher := hfl }
    · cases hstep
      exact { inv with flusher := trivial }
  case fsync =>
    split at hstep <;> try contradiction
    rename_i w hf
    rw [hf] at hfl
    cases hstep
    exact ⟨inv.ring, le_rfl, hfl, fun i hi =>
      ⟨(inv.flushed i hi).1, (inv.flushed i hi).2.trans inv.synced_le⟩, inv.target, inv.acked⟩
  case publishFlushed =>
    split at hstep <;> try contradiction
    rename_i w hf
    rw [hf] at hfl
    cases hstep
    obtain ⟨c, hc, hw, hle⟩ := hfl
    refine ⟨inv.ring, inv.synced_le, trivial, fun i hi => ?_, inv.target, fun i r t hr ht =>
      (inv.acked i r t hr ht).trans (le_max_left _ _)⟩
    change s.recordBase + i + 1 ≤ max s.flushed w at hi
    change i < s.recs.length ∧ offset (blocks s.recs) (i + 1) ≤ s.synced
    rcases le_max_iff.mp hi with h | h
    · exact inv.flushed i h
    · have hic : i + 1 ≤ c := by omega
      exact ⟨by omega, (offset_mono _ hic).trans hle⟩

lemma inv_step (inv : Inv s) (hguard : InByteOrder s a) (hstep : step s a = some s') : Inv s' := by
  simp only [step, or_eq_some_iff] at hstep
  rcases hstep with h | ⟨-, h | ⟨-, h⟩⟩
  · exact inv_publishStep inv hguard h
  · exact inv_flushToStep inv h
  · exact inv_drainStep inv h

/-! ## Every run -/

/-- In every interleaving whose submissions count in ring order, every record whose `wait`
has returned `Ok` is in the WAL file below a completed fsync. -/
theorem ack_durable (bits : ℕ) (hasRecords : Bool) (as : List Action) (s : State)
    (hrun : Path step InByteOrder (openOrCreate bits hasRecords) as s)
    (r : Submission) (hr : r ∈ s.recs) (hack : Acknowledged r) : Durable s r :=
  (hrun.invariant (fun _ _ _ inv hg hst => inv_step inv hg hst)
    (inv_openOrCreate bits hasRecords)).durable hr hack

/-- Two submissions that count in ring order and are acknowledged by one fsync. -/
def orderedCount : List Action :=
  [.reserve [1] true, .reserve [2] true, .fill 1, .ringPublish 1, .fill 0, .ringPublish 0,
    .countQueued 0, .countQueued 1, .waitRequest 1, .readCount, .copyPrefix, .decideSync, .fsync,
    .publishFlushed, .waitDone 1, .waitFast 0]

theorem ack_durable_orderedCount :
    ∃ s, Path step InByteOrder (openOrCreate 6 true) orderedCount s ∧
      ∃ r ∈ s.recs, Acknowledged r ∧ Durable s r := by
  obtain ⟨s, -, hpath, hr⟩ := path_of_guardedTo (show guardedTo step InByteOrder
    (fun s => ⟨[2], true, ⟨1, 2⟩, .acked 3⟩ ∈ s.recs) (openOrCreate 6 true) orderedCount = true by
      decide)
  exact ⟨s, hpath, _, hr, ⟨rfl, 3, rfl⟩,
    ack_durable 6 true orderedCount s hpath _ hr ⟨rfl, 3, rfl⟩⟩

end Journal
end Holt
