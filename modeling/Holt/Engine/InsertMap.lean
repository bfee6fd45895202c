import Holt.Engine.Insert

/-!
# What inserts mean

Rounds of inserts in one frame, read as updates of a map.  A frame maps the keys of its leaves; a
round that goes through gives its key a new leaf and touches no other, and it goes through exactly
when its condition holds of the leaf the key had.  The edges to other blobs stay where they are,
whatever is split around them.

An insert is refused where one stored key would be a prefix of another.  The terminator rules that
out for keys without a `0` byte: while all keys are such (`NulFree`), the only errors are those of
a frame that is full.
-/

namespace Holt.Engine

open List Fallible SearchKey
open Store (Guid)
open SortedAssoc hiding set mem_set

/-! ## The map -/

/-- The condition of the insert fails on what the key has. -/
def Put.Fails (p : Put) (m : Set Leaf) : Prop :=
  (∃ l ∈ m, l.key = full p.key ∧ p.rejects l) ∨ p.guarded ∧ ∀ l ∈ m, l.key ≠ full p.key

/-- The map with the leaf of the insert for its key. -/
def Put.update (p : Put) (m : Set Leaf) : Set Leaf := {l | l = p.leaf ∨ l ∈ m ∧ l.key ≠ full p.key}

/-- What a round returns. -/
abbrev Round := Except WalkError InsertStep

/-- What a round does to the map. -/
def MapStep (edges : Set (List Byte × Guid)) (m m' : Set Leaf) (p : Put) : Round → Prop
  | .ok (.done r) => if r.mutated then ¬p.Fails m ∧ m' = p.update m else p.Fails m ∧ m' = m
  -- the rest of the key is below an edge
  | .ok (.crossing c) =>
    (∃ q, (q, c.childGuid) ∈ edges ∧ q <+: full p.key ∧ q.length = c.childDepth) ∧ m' = m
  | .error _ => m' = m

/-- Inserts with their results take the map from `m` to `m'`. -/
inductive MapRun (edges : Set (List Byte × Guid)) : Set Leaf → List (Put × Round) → Set Leaf → Prop
  | nil (m : Set Leaf) : MapRun edges m [] m
  | cons {m m' m'' p r rs} (step : MapStep edges m m' p r) (rest : MapRun edges m' rs m'') :
      MapRun edges m ((p, r) :: rs) m''

/-- A `0` byte stands only at the end of a way through the tree, and on no way to an inner node. -/
inductive NulFree : List Byte → Tree → Prop
  | emptyRoot {path} : NulFree path (.emptyRoot ())
  | leaf {path l} (hkey : 0 ∉ l.key.dropLast) : NulFree path (.leaf () l)
  | prefixNode {path bytes child} (hway : 0 ∉ (path ++ bytes).dropLast)
      (hchild : NulFree (path ++ bytes) child) : NulFree path (.prefixNode () bytes child)
  | inner {path kind children} (hway : 0 ∉ path)
      (hall : ∀ c ∈ children, NulFree (path ++ [c.1]) c.2) : NulFree path (.inner () kind children)
  | blobNode {path bytes guid} (hway : 0 ∉ (path ++ bytes).dropLast) :
      NulFree path (.blobNode () bytes guid)

/-- The tree `u` is `t` after the update. -/
structure Updates (p : Put) (path : List Byte) (t u : Tree) : Prop where
  wf : u.Wf path
  leaves : ∀ l, l ∈ u.leaves ↔ l = p.leaf ∨ l ∈ t.leaves ∧ l.key ≠ full p.key
  edges : ∀ e, e ∈ u.edges path ↔ e ∈ t.edges path
  nulFree : p.key.NulFree → NulFree path t → NulFree path u

/-- What an outcome says about the map. -/
def Outcome.Meets (p : Put) (path : List Byte) (t : Tree) : Outcome → Prop
  | .crossing guid depth => ∃ q, (q, guid) ∈ t.edges path ∧ q <+: full p.key ∧ q.length = depth
  | .kept => p.Fails {l | l ∈ t.leaves}
  | .made u => ¬p.Fails {l | l ∈ t.leaves} ∧ Updates p path t u

namespace Tree

variable {p : Put} {path bytes s rest : List Byte} {a b byte : Byte} {t u : Tree} {o : Outcome}
  {kind : NodeKind} {children : List (Byte × Tree)}

/-- The keys of a tree at a path begin with the path. -/
lemma under (ht : t.Wf path) : ∀ l ∈ t.leaves, path <+: l.key := by
  induction t using Art.induction generalizing path with
  | emptyRoot | blobNode => simp [Art.leaves]
  | leaf note l => simpa [Art.leaves] using Leaf.Stored.under ht
  | prefixNode note bytes child ih => exact fun l hl => (prefix_append _ _).trans (ih ht.2.2 l hl)
  | inner note kind children ih =>
    intro l hl
    rw [Art.leaves_inner, mem_flatMap] at hl
    obtain ⟨c, hc, hl⟩ := hl
    exact (prefix_append _ _).trans (ih c hc (Art.wfAll_iff.mp ht.2.2 c hc) l hl)

/-- Leaves below another byte than the key's have other keys. -/
lemma key_ne (ht : t.Wf (path ++ [b])) (hkey : path ++ [a] <+: full p.key) (hab : a ≠ b) :
    ∀ l ∈ t.leaves, l.key ≠ full p.key := by
  rintro l hl heq
  have hpre := heq ▸ under ht l hl
  have hsame := (prefix_of_prefix_length_le hkey hpre (by simp)).eq_of_length (by simp)
  simp [hab] at hsame

lemma nulFree_leaf (hnul : p.key.NulFree) : NulFree path (.leaf () p.leaf) :=
  .leaf (by simpa [Put.leaf, Leaf.fresh, full, Key.NulFree] using hnul)

/-! ## Splitting -/

/-- A chain of prefix nodes stands for one long prefix. -/
lemma chainLoop_spec {fuel : ℕ} (hlen : bytes.length ≤ fuel) (ht : t.Wf (path ++ bytes)) :
    (chainLoop fuel bytes t).Wf path ∧
      (chainLoop fuel bytes t).edges path = t.edges (path ++ bytes) ∧
      (0 ∉ (path ++ bytes).dropLast → NulFree (path ++ bytes) t →
        NulFree path (chainLoop fuel bytes t)) := by
  induction fuel generalizing bytes t with
  | zero =>
    obtain rfl : bytes = [] := length_eq_zero_iff.mp (by omega)
    simpa [chainLoop] using ht
  | succ fuel ih =>
    unfold chainLoop
    split_ifs with hnil
    · simpa [hnil] using ht
    · -- the lowest node takes the last bytes, and the rest of the chain comes above it
      have hpos := length_pos_iff.mpr hnil
      have hmax : 0 < prefixMaxInline := by decide
      generalize hn : bytes.length - min bytes.length prefixMaxInline = n
      have hnode : (Art.prefixNode () (bytes.drop n) t).Wf (path ++ bytes.take n) :=
        ⟨by rw [← length_pos_iff, length_drop]; omega, by rw [length_drop]; omega,
          by rwa [append_assoc, take_append_drop]⟩
      have hstep := ih (by rw [length_take]; omega) hnode
      have hsplit : path ++ bytes.take n ++ bytes.drop n = path ++ bytes := by
        rw [append_assoc, take_append_drop]
      rw [Art.edges, hsplit] at hstep
      refine ⟨hstep.1, hstep.2.1, fun hway hfree =>
        hstep.2.2 (fun h => hway ?_) (.prefixNode ?_ ?_)⟩
      · rw [← hsplit, dropLast_append_of_ne_nil hnode.1]
        exact mem_append_left _ (mem_of_mem_dropLast h)
      · rwa [hsplit]
      · rwa [hsplit]

/-- A fork holds what both sides hold. -/
lemma wf_fork (hab : a ≠ b) (h : t.Wf (path ++ s ++ [b])) (h' : u.Wf (path ++ s ++ [a])) :
    (fork s b t a u).Wf path ∧ (∀ e, e ∈ (fork s b t a u).edges path ↔
      e ∈ t.edges (path ++ s ++ [b]) ∨ e ∈ u.edges (path ++ s ++ [a])) ∧
    (0 ∉ path ++ s → NulFree (path ++ s ++ [b]) t → NulFree (path ++ s ++ [a]) u →
      NulFree path (fork s b t a u)) := by
  have hperm := perm_pair (b, t) (a, u)
  have hinner : (Art.inner () .node4 (sortByKey [(b, t), (a, u)])).Wf (path ++ s) := by
    refine ⟨hperm.length_eq.trans_le (by simp [NodeKind.capacity]), ?_, ?_⟩
    · rw [sortByKey_pair]
      split_ifs with hle
      · simpa [Increasing] using lt_of_le_of_ne hle hab.symm
      · simpa [Increasing] using hle
    · simpa [hperm.mem_iff] using And.intro h h'
  obtain ⟨hwf, hedges, hchain⟩ := chainLoop_spec le_rfl hinner
  rw [fork, chain, hedges]
  refine ⟨hwf, fun e => by simp [Art.edges, hperm.mem_iff], fun hway ht hu => ?_⟩
  refine hchain (fun hmem => hway (mem_of_mem_dropLast hmem)) (.inner hway fun c hc => ?_)
  have hc' : c = (b, t) ∨ c = (a, u) := by simpa [hperm.mem_iff] using hc
  rcases hc' with rfl | rfl
  · exact ht
  · exact hu

/-- What was there, now `u`, parts from the key after the bytes `s`. -/
lemma meets_split (hp : p.leaf.Stored path) (hab : a ≠ b)
    (hkey : full p.key = path ++ s ++ a :: rest) (hu : u.Wf (path ++ s ++ [b]))
    (hleaves : u.leaves = t.leaves) (hedges : u.edges (path ++ s ++ [b]) = t.edges path)
    (hfree : NulFree path t → NulFree (path ++ s ++ [b]) u)
    (h : (if p.guarded then .ok .kept else .ok (.made (fork s b u a (.leaf () p.leaf)))) =
      (.ok o : Except WalkError Outcome)) : o.Meets p path t := by
  have hthrough : path ++ s ++ [a] <+: full p.key := ⟨rest, by simp [hkey]⟩
  have hne : ∀ l ∈ t.leaves, l.key ≠ full p.key := hleaves ▸ key_ne hu hthrough hab
  split_ifs at h with hguard
  · exact Except.ok.inj h ▸ .inr ⟨hguard, hne⟩
  · obtain rfl := Except.ok.inj h
    obtain ⟨hwf, hfork, hforked⟩ :=
      wf_fork hab hu (u := .leaf () p.leaf) { hp with under := hthrough }
    refine ⟨by grind [Put.Fails], hwf, fun l => ?_, fun e => ?_, fun hnul ht => ?_⟩
    · rw [leaves_fork.mem_iff, hleaves]
      grind [Art.leaves]
    · rw [hfork, hedges]
      simp [Art.edges]
    · refine hforked (fun hmem => hnul ?_) (hfree ht) (nulFree_leaf hnul)
      -- the key goes on after the shared bytes
      have hshared : path ++ s <+: p.key := by
        have hfull : path ++ s <+: full p.key := hkey ▸ prefix_append _ _
        refine prefix_of_prefix_length_le hfull (prefix_append _ _) ?_
        have := congrArg length hkey
        simp [len] at this ⊢
        omega
      exact hshared.subset hmem

lemma insertLeaf_meets {l : Leaf} (hp : p.leaf.Stored path) (hl : l.Stored path)
    (h : insertLeaf p path.length l = .ok o) : o.Meets p path (.leaf () l) := by
  obtain ⟨suffix, hsuffix⟩ := hl.under
  simp only [insertLeaf, eqSlice_iff, ← hsuffix, drop_left] at h
  rw [hsuffix] at h
  split_ifs at h with hkey hrej hterm hguard
  · exact Except.ok.inj h ▸ .inl ⟨l, mem_singleton_self l, hkey, hrej⟩
  · exact Except.ok.inj h ▸ ⟨by simp [Put.Fails, Art.leaves, hkey, hrej], hp,
      by simp [Art.leaves, hkey], by simp [Art.edges], fun hnul _ => nulFree_leaf hnul⟩
  all_goals
    obtain ⟨hother, hrest⟩ := not_or.mp hterm
    obtain ⟨s, a, b, rest, rest', hab, hfull, rfl, hs⟩ := parts hp.under hother hrest
    refine meets_split (u := .leaf () l) hp hab hfull { hl with under := ⟨rest', ?_⟩ } rfl rfl
      (fun ht => ?_) ?_
    · simpa using hsuffix
    · cases ht with
      | leaf hkey => exact .leaf hkey
    · simpa [hguard, hs, byteAt_eq, hfull] using h

/-- Splitting a prefix adds the leaf and moves nothing else. -/
lemma splitPrefix_meets {child : Tree} (hp : p.leaf.Stored path) (hchild : child.Wf (path ++ bytes))
    (hne : commonPrefixWithSlice p.key path.length bytes ≠ bytes.length)
    (h : splitPrefix p path.length bytes child = .ok o) :
    o.Meets p path (.prefixNode () bytes child) := by
  simp only [splitPrefix] at h
  split_ifs at h with hterm hguard
  all_goals
    obtain ⟨s, a, b, rest, rest', hab, hfull, rfl, hs⟩ := parts hp.under hne (by omega)
    have hrest : child.Wf (path ++ s ++ [b] ++ rest') := by simpa using hchild
    obtain ⟨hwf, hedges, hchain⟩ := chainLoop_spec le_rfl hrest
    refine meets_split (u := chain rest' child) hp hab hfull hwf leaves_chain ?_ (fun ht => ?_) ?_
    · simpa [Art.edges, chain] using hedges
    · cases ht with
      | prefixNode hway hfree => exact hchain (by simpa using hway) (by simpa using hfree)
    · simpa [hguard, hs, byteAt_eq, hfull] using h

lemma insertBlobNode_meets {guid : Guid} (hp : p.leaf.Stored path)
    (hlen : bytes.length ≤ blobMaxInline) (h : insertBlobNode p path.length bytes guid = .ok o) :
    o.Meets p path (.blobNode () bytes guid) := by
  rw [insertBlobNode, byteAt_eq] at h
  by_cases hall : commonPrefixWithSlice p.key path.length bytes = bytes.length
  · rw [if_pos hall] at h
    exact Except.ok.inj h ▸ ⟨path ++ bytes, by simp [Art.edges], through hp.under hall, by simp⟩
  · rw [if_neg hall] at h
    split at h
    case h_1 => cases h
    case h_2 byte hbyte =>
      have hlt := (List.getElem?_eq_some_iff.mp hbyte).1
      rw [length_full] at hlt
      obtain ⟨s, a, b, rest, rest', hab, hfull, rfl, hs⟩ := parts hp.under hall (by omega)
      obtain rfl : a = byte := by simpa [hs, hfull] using hbyte
      refine meets_split (u := .blobNode () rest' guid) hp hab hfull ?_ rfl ?_ (fun ht => ?_) ?_
      · simp only [length_append, length_cons] at hlen
        exact show rest'.length ≤ blobMaxInline by omega
      · simp [Art.edges]
      · cases ht with
        | blobNode hway => exact .blobNode (by simpa using hway)
      · simpa [hs] using h

/-! ## Going down -/

lemma meets_emptyRoot (hp : p.leaf.Stored path) :
    Outcome.Meets p path (.emptyRoot ())
    (if p.guarded then .kept else .made (.leaf () p.leaf)) := by
  split_ifs with hguard
  · exact .inr ⟨hguard, by simp [Art.leaves]⟩
  · exact ⟨by simp [Put.Fails, hguard, Art.leaves], hp, by simp [Art.leaves], by simp [Art.edges],
      fun hnul _ => nulFree_leaf hnul⟩

lemma length_set_le (ht : (Art.inner () kind children).Wf path) (byte : Byte) (u : Tree) :
    (SortedAssoc.set byte u children).length ≤
      (if (find byte children).isSome then kind else kind.widened children.length).capacity := by
  obtain ⟨hlen, hinc, -⟩ := ht
  cases hfind : find byte children with
  | some c =>
    obtain ⟨l, r, rfl, -, hset⟩ := set_of_find hinc hfind
    simpa [hset] using hlen
  | none =>
    have hmax := Art.length_le_of_increasing (increasing_set byte u hinc)
    obtain ⟨l, r, rfl, hset⟩ := set_of_not_find hfind
    cases kind <;> grind [NodeKind.widened, NodeKind.capacity]

/-- The outcome at the child of a byte, or at the empty tree if there is none. -/
lemma meets_inner (ht : (Art.inner () kind children).Wf path)
    (hkey : path ++ [byte] <+: full p.key)
    (ho : o.Meets p (path ++ [byte]) ((find byte children).getD (.emptyRoot ()))) :
    (o.map fun u => .inner () (if (find byte children).isSome then kind
      else kind.widened children.length) (SortedAssoc.set byte u children)).Meets p path
      (.inner () kind children) := by
  have hcap := length_set_le ht byte
  obtain ⟨-, hinc, hall⟩ := ht
  rw [Art.wfAll_iff] at hall
  have hother : ∀ l ∈ (children.filter (·.1 ≠ byte)).flatMap fun c => c.2.leaves,
      l.key ≠ full p.key := by
    intro l hl
    obtain ⟨c, hc, hl⟩ := mem_flatMap.mp hl
    rw [mem_filter, decide_eq_true_iff] at hc
    exact key_ne (hall c hc.1) hkey (Ne.symm hc.2) l hl
  have hat {γ : Type} (g : Byte × Tree → List γ) (hg : g (byte, .emptyRoot ()) = []) :=
    mem_flatMap_find hinc g hg
  have hleaf := hat (fun c => c.2.leaves) rfl
  have hedge := hat (fun c => c.2.edges (path ++ [c.1])) rfl
  rw [← Art.leaves_inner () kind] at hleaf
  rw [← Art.edges_inner () kind] at hedge
  have hfails : p.Fails {l | l ∈ (Art.inner () kind children).leaves} ↔
      p.Fails {l | l ∈ ((find byte children).getD (.emptyRoot ())).leaves} := by
    grind [Put.Fails]
  cases o with
  | crossing guid depth =>
    obtain ⟨q, hq, hrest⟩ := ho
    exact ⟨q, (hedge _).mpr (.inl hq), hrest⟩
  | kept => exact hfails.mpr ho
  | made u =>
    obtain ⟨hok, hu⟩ := ho
    refine ⟨hfails.not.mpr hok, ⟨hcap u, increasing_set _ _ hinc, ?_⟩, fun l => ?_, fun e => ?_,
      fun hnul ht => ?_⟩
    · rw [Art.wfAll_iff]
      intro c hc
      rcases (SortedAssoc.mem_set hinc).mp hc with rfl | ⟨hc, -⟩
      · exact hu.wf
      · exact hall c hc
    · rw [Art.leaves_inner, mem_flatMap_set hinc, hu.leaves, hleaf]
      grind
    · rw [Art.edges_inner, mem_flatMap_set hinc, hu.edges, hedge]
    · cases ht with
      | inner hway hfree =>
        refine .inner hway fun c hc => ?_
        rcases (SortedAssoc.mem_set hinc).mp hc with rfl | ⟨hc, -⟩
        · refine hu.nulFree hnul ?_
          cases hfind : find byte children with
          | none => exact .emptyRoot
          | some c => exact hfree _ (mem_of_find hfind)
        · exact hfree c hc

/-- The tree after an insert is the map with the key set. -/
theorem insert_meets (hp : p.leaf.Stored path) (ht : t.Wf path)
    (h : insert p path.length t = .ok o) : o.Meets p path t := by
  induction t using Art.induction generalizing path o with
  | emptyRoot => exact Except.ok.inj h ▸ meets_emptyRoot hp
  | leaf note l => exact insertLeaf_meets hp ht h
  | prefixNode note bytes child ih =>
    obtain ⟨hne, hlen, hchild⟩ := ht
    rw [insert] at h
    split_ifs at h with hall
    · cases hin : insert p (path.length + bytes.length) child with
      | error e => simp [hin, Except.map] at h
      | ok o' =>
        obtain rfl := Except.ok.inj (hin ▸ h)
        have hmeets := ih { hp with under := through hp.under hall } hchild (length_append ▸ hin)
        cases o' with
        | crossing | kept => exact hmeets
        | made u =>
          obtain ⟨hok, hwf, hleaves, hedges, hnulFree⟩ := hmeets
          refine ⟨hok, ⟨hne, hlen, hwf⟩, hleaves, hedges, fun hnul ht => ?_⟩
          cases ht with
          | prefixNode hway hfree => exact .prefixNode hway (hnulFree hnul hfree)
    · exact splitPrefix_meets hp hchild hall h
  | inner note kind children ih =>
    rw [insert, byteAt_eq] at h
    cases hbyte : (full p.key)[path.length]? with
    | none => simp [hbyte] at h
    | some byte =>
      have hp' : p.leaf.Stored (path ++ [byte]) := { hp with under := through_byte hp.under hbyte }
      simp only [hbyte, insertChild_eq] at h
      cases hfind : find byte children with
      | none =>
        have hnew := meets_inner ht hp'.under (by rw [hfind]; exact meets_emptyRoot hp')
        simp only [hfind, Option.map_none, Except.ok.injEq, Option.isSome_none, Bool.false_eq_true,
          if_false] at h hnew
        rw [← h]
        split_ifs at hnew ⊢ <;> exact hnew
      | some c =>
        have hc := mem_of_find hfind
        cases hin : insert p (path.length + 1) c with
        | error e => simp [hfind, hin, Except.map] at h
        | ok o' =>
          have hchild := ih _ hc hp' (Art.wfAll_iff.mp ht.2.2 _ hc) (by simpa using hin)
          have hmeets := meets_inner (o := o') ht hp'.under (by rw [hfind]; exact hchild)
          simp only [hfind, hin, Option.map_some, Except.map, Except.ok.injEq, Option.isSome_some,
            if_true] at h hmeets
          exact h ▸ hmeets
  | blobNode note bytes guid => exact insertBlobNode_meets hp ht h

/-! ## Refusals -/

/-- The terminator of a key is not inside a way without `0` bytes. -/
lemma full_eq_of_way {key : Key} {way : List Byte} (hpre : full key <+: way)
    (hway : 0 ∉ way.dropLast) : full key = way := by
  obtain ⟨tail, rfl⟩ := hpre
  by_cases htail : tail = []
  · rw [htail, append_nil]
  · rw [dropLast_append_of_ne_nil htail] at hway
    simp [full] at hway

/-- A key that leaves such a way goes on after it has left. -/
lemma parts_of_nulFree (hkey : path <+: full p.key)
    (hother : commonPrefixWithSlice p.key path.length bytes ≠ bytes.length)
    (hway : 0 ∉ (path ++ bytes).dropLast) :
    ∃ s a b rest rest', a ≠ b ∧ full p.key = path ++ s ++ a :: rest ∧ bytes = s ++ b :: rest' ∧
      commonPrefixWithSlice p.key path.length bytes = s.length := by
  refine parts hkey hother fun hend => hother (hend.trans ?_)
  have hlen := congrArg length (full_eq_of_way (within hkey hend) hway)
  rw [length_full, length_append] at hlen
  omega

/-- Keys without `0` bytes are not prefixes of one another, so none is refused. -/
lemma insert_total (hnul : p.key.NulFree) (hp : p.leaf.Stored path) (ht : t.Wf path)
    (hfree : NulFree path t) : ∃ o, insert p path.length t = .ok o := by
  induction hfree with
  | emptyRoot => exact ⟨_, rfl⟩
  | @leaf path l hkey =>
    obtain ⟨suffix, hsuffix⟩ := Leaf.Stored.under ht
    rw [insert, insertLeaf]
    by_cases hsame : l.key = full p.key
    · rw [if_pos (eqSlice_iff.mpr hsame)]
      split_ifs <;> exact ⟨_, rfl⟩
    · have hother : commonPrefixWithSlice p.key path.length suffix ≠ suffix.length := by
        intro hall
        obtain ⟨key, hwhole, -⟩ := Leaf.Stored.whole ht
        refine hsame (hwhole.trans (full_eq_of_way ?_ ?_))
        swap
        · simpa [full, Key.NulFree] using hnul
        exact hwhole ▸ hsuffix ▸ through hp.under hall
      obtain ⟨s, a, b, rest, rest', -, hfull, -, hs⟩ :=
        parts_of_nulFree hp.under hother (hsuffix ▸ hkey)
      have hlen := congrArg length hfull
      simp only [length_full, length_append, length_cons] at hlen
      have hrest : commonPrefixWithSlice p.key path.length suffix ≠
          remainingLen p.key path.length := by
        rw [remainingLen]
        omega
      rw [if_neg (mt eqSlice_iff.mp hsame), ← hsuffix, drop_left,
        if_neg (not_or.mpr ⟨hother, hrest⟩)]
      split_ifs <;> exact ⟨_, rfl⟩
  | @prefixNode path bytes child hway hchild ih =>
    rw [insert]
    split_ifs with hall
    · obtain ⟨o, ho⟩ := ih { hp with under := through hp.under hall } ht.2.2
      rw [length_append] at ho
      exact ⟨_, by rw [ho]; rfl⟩
    · obtain ⟨s, a, b, rest, rest', -, hfull, -, hs⟩ := parts_of_nulFree hp.under hall hway
      have hlen := congrArg length hfull
      simp only [length_full, length_append, length_cons] at hlen
      rw [splitPrefix, if_neg (by omega)]
      split_ifs <;> exact ⟨_, rfl⟩
  | @inner path kind children hway hall ih =>
    rw [insert, byteAt_eq]
    cases hbyte : (full p.key)[path.length]? with
    | none =>
      have hunder : path <+: full p.key := hp.under
      have heq := hunder.eq_of_length_le (by simpa using hbyte)
      exact absurd (heq ▸ mem_append_right _ (mem_singleton_self 0)) hway
    | some byte =>
      simp only [insertChild_eq]
      cases hfind : find byte children with
      | none => exact ⟨_, rfl⟩
      | some c =>
        have hc := mem_of_find hfind
        obtain ⟨o, ho⟩ := ih _ hc { hp with under := through_byte hp.under hbyte }
          (Art.wfAll_iff.mp ht.2.2 _ hc)
        rw [length_append, length_singleton] at ho
        exact ⟨_, by rw [Option.map_some, ho]; rfl⟩
  | @blobNode path bytes guid hway =>
    rw [insert, insertBlobNode]
    by_cases hall : commonPrefixWithSlice p.key path.length bytes = bytes.length
    · exact ⟨_, if_pos hall⟩
    · obtain ⟨s, a, b, rest, rest', -, hfull, -, hs⟩ := parts_of_nulFree hp.under hall hway
      have hbyte : byteAt p.key (path.length + s.length) = some a := by
        rw [byteAt_eq, hfull]
        simp
      rw [if_neg hall]
      simp only [hs, hbyte]
      split_ifs <;> exact ⟨_, rfl⟩

end Tree

/-! ## Rounds in a frame -/

/-- The records of a frame. -/
def Frame.map (f : Frame) : Set Leaf := {l | ∃ t, f.tree = some t ∧ l ∈ t.leaves}

/-- The edges of a frame below `path`. -/
def Frame.edges (f : Frame) (path : List Byte) : Set (List Byte × Guid) :=
  {e | ∃ t, f.tree = some t ∧ e ∈ t.edges path}

/-- All ways through the tree of a frame are without `0` bytes. -/
def Frame.NulFree (f : Frame) (path : List Byte) : Prop :=
  ∀ t, f.tree = some t → Engine.NulFree path t

variable {p : Put} {path : List Byte} {f f' : Frame} {t : Art ℕ}

lemma Frame.Holds.map_eq (h : f.Holds t) : f.map = {l | l ∈ t.plain.leaves} := by
  simp [Frame.map, h.tree]

lemma Frame.Holds.edges_eq (h : f.Holds t) : f.edges path = {e | e ∈ t.plain.edges path} := by
  simp [Frame.edges, h.tree]

/-- The same of a round in a frame. -/
lemma insertInBlob_meets {r : Round} (hf : f.WellFormed path) (hp : p.leaf.Stored path)
    (hrun : exec (insertInBlob p path.length) f = (r, f')) :
    f'.WellFormed path ∧ f'.edges path = f.edges path ∧
      MapStep (f.edges path) f.map f'.map p r ∧
      (p.key.NulFree → f.NulFree path →
        f'.NulFree path ∧ ∀ e, r = .error e → ∃ a, e = .alloc a) := by
  obtain ⟨t, hholds, hwf⟩ := hf
  have hplain := (Art.wf_plain t).mpr hwf
  cases r with
  | error e =>
    have hrefused := (insertInBlob_spec hholds hwf).of_error hrun
    have hkept : f'.Holds t := by
      rcases hrefused with hfail | ⟨-, rfl⟩
      · exact hholds.failed hfail.2
      · exact hholds
    have htree := hkept.tree.trans hholds.tree.symm
    refine ⟨⟨t, hkept, hwf⟩, hkept.edges_eq.trans hholds.edges_eq.symm,
      hkept.map_eq.trans hholds.map_eq.symm, fun hnul hfree => ⟨fun u hu => hfree u ?_, ?_⟩⟩
    · rw [← htree, hu]
    · intro e' he
      obtain rfl := Except.error.inj he
      rcases hrefused with hfail | ⟨herr, -⟩
      · exact hfail.1
      · obtain ⟨o, ho⟩ := Tree.insert_total hnul hp hplain (hfree _ hholds.tree)
        rw [herr] at ho
        cases ho
  | ok r =>
    obtain ⟨o, ho, hr⟩ := (insertInBlob_spec hholds hwf).of_ok hrun
    have hmeets := Tree.insert_meets hp hplain ho
    cases o with
    | crossing guid depth =>
      obtain ⟨rfl, off, bytes, rfl, -⟩ := hr
      exact ⟨⟨t, hholds, hwf⟩, rfl, ⟨hholds.edges_eq ▸ hmeets, rfl⟩, fun _ h => ⟨h, by simp⟩⟩
    | kept =>
      obtain ⟨rfl, rfl⟩ := hr
      exact ⟨⟨t, hholds, hwf⟩, rfl, ⟨hholds.map_eq ▸ hmeets, rfl⟩, fun _ h => ⟨h, by simp⟩⟩
    | made u =>
      obtain ⟨t', -, rfl, rfl, hholds', -⟩ := hr
      obtain ⟨hok, hu⟩ := hmeets
      refine ⟨⟨t', hholds', (Art.wf_plain t').mp hu.wf⟩, ?_, ⟨hholds.map_eq ▸ hok, ?_⟩,
        fun hnul hfree => ⟨fun u hu' => ?_, by simp⟩⟩
      · rw [hholds'.edges_eq, hholds.edges_eq]
        exact Set.ext hu.edges
      · rw [hholds'.map_eq, hholds.map_eq]
        exact Set.ext hu.leaves
      · cases hholds'.tree.symm.trans hu'
        exact hu.nulFree hnul (hfree _ hholds.tree)

/-- Rounds one after the other, with what they return. -/
def insertAll (depth : ℕ) : List Put → Frame → List (Put × Round) × Frame
  | [], f => ([], f)
  | p :: ps, f =>
    let round := exec (insertInBlob p depth) f
    let rest := insertAll depth ps round.2
    ((p, round.1) :: rest.1, rest.2)

/-- Inserts of keys of a frame, one after the other and however each ends, keep the frame well
formed and its edges in place, and they do to its map, and return, what the steps of the map say.
If no key has a `0` byte, none is refused: an insert fails only for want of room. -/
theorem inserts_refine_map {ps : List Put} (hf : f.WellFormed path)
    (hps : ∀ p ∈ ps, p.leaf.Stored path) :
    let run := insertAll path.length ps f
    run.2.WellFormed path ∧ run.2.edges path = f.edges path ∧
      MapRun (f.edges path) f.map run.1 run.2.map ∧
      (f.NulFree path → (∀ p ∈ ps, p.key.NulFree) →
        run.2.NulFree path ∧ ∀ p e, (p, .error e) ∈ run.1 → ∃ a, e = .alloc a) := by
  induction ps generalizing f with
  | nil => exact ⟨hf, rfl, .nil _, fun h _ => ⟨h, by simp [insertAll]⟩⟩
  | cons p ps ih =>
    obtain ⟨hp, hps⟩ := forall_mem_cons.mp hps
    obtain ⟨hround, hedges, hstep, htotal⟩ := insertInBlob_meets hf hp (Prod.eta _).symm
    obtain ⟨hwf, hedges', hrest, hlater⟩ := ih hround hps
    refine ⟨hwf, hedges'.trans hedges, .cons hstep (hedges ▸ hrest), fun hfree hnul => ?_⟩
    obtain ⟨hp, hps⟩ := forall_mem_cons.mp hnul
    obtain ⟨hkept, herr⟩ := htotal hp hfree
    obtain ⟨hfree', herrs⟩ := hlater hkept hps
    refine ⟨hfree', fun q e hmem => ?_⟩
    rcases mem_cons.mp hmem with heq | hmem
    · exact herr e (Prod.mk.inj heq).2.symm
    · exact herrs q e hmem

/-- The second insert finds the version of the first. -/
theorem inserts_refine_map_nearlyFull :
    let f := nearlyFull ⟨List.replicate 16 0, rfl⟩
    let p : Put := ⟨[97], [], 2, .ifVersion 1⟩
    let run := insertAll 0 [p, p] f
    run.1.map Prod.snd =
        [.ok (.done ⟨dataAreaStart + 8, true⟩), .ok (.done ⟨dataAreaStart + 8, false⟩)] ∧
      MapRun (f.edges []) f.map run.1 run.2.map ∧ run.2.NulFree [] := by
  intro f p run
  have hstored : (Leaf.fresh [97] [] 2).Stored [] :=
    ⟨List.nil_prefix, ⟨[97], rfl, .inr rfl⟩, by decide, by decide⟩
  have hall : ∀ q ∈ [p, p], q.leaf.Stored [] := by simpa [p, Put.leaf] using hstored
  have hfree : f.NulFree [] := by
    intro t ht
    have htree : f.tree = some (.leaf () (.fresh [97] [1] 1)) := rfl
    cases htree.symm.trans ht
    exact .leaf (by decide)
  obtain ⟨-, -, hrun, htotal⟩ := inserts_refine_map (nearlyFull_wellFormed _) hall
  exact ⟨by decide +kernel, hrun, (htotal hfree (by decide)).1⟩

end Holt.Engine
