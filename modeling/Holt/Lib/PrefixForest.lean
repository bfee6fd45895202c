import Holt.Lib.Table

/-!
# Forests of pages addressed by key prefixes

A map from words to records can be kept in several pages.  A page holds records of its own
and edges: an edge `(p, c)` says that the records of all words that start with `p` are to be
found from page `c` on.  Reading a word follows edges until no edge of the page covers it.

Every page stands for a region, the words that start with one fixed path, and its edges lead
to strictly smaller regions (`Shaped`).  In a closed forest of shaped pages every read ends
(`reads_total`), and `lookup` with as much fuel as the word is long computes it.

Three changes of pages are treated: writing one record (`setRecord`), moving the part of a
page below a path to a new page (`spill`), and folding a child page back into its parent
(`absorb`).  The first changes what is read for one word, the other two change no read.
-/

namespace PrefixForest

open Function List

/-- A page: its own records, and edges to the pages of smaller regions. -/
structure Page (α γ ρ : Type*) where
  records : List α → Option ρ
  edges : List (List α × γ)

/-- A store of pages. -/
abbrev Pages (α γ ρ : Type*) := γ → Option (Page α γ ρ)

variable {α γ ρ : Type*} [DecidableEq α]

/-- The child page that is in charge of a word. -/
def Page.child? (page : Page α γ ρ) (k : List α) : Option γ :=
  (page.edges.find? (fun e => e.1.isPrefixOf k)).map Prod.snd

/-- Read a word from page `g`, following at most `n` edges. -/
def lookup (pages : Pages α γ ρ) : ℕ → γ → List α → Option ρ
  | n, g, k =>
    match pages g with
    | none => none
    | some page =>
      match page.child? k with
      | none => page.records k
      | some c =>
        match n with
        | 0 => none
        | n + 1 => lookup pages n c k

/-- What the forest holds, read from a root. -/
def contents (pages : Pages α γ ρ) (root : γ) (k : List α) : Option ρ :=
  lookup pages k.length root k

/-- Reading `k` from page `g` ends at page `h`. -/
inductive Owner (pages : Pages α γ ρ) (k : List α) : γ → γ → Prop
  | here {g : γ} {page : Page α γ ρ} (hg : pages g = some page) (hk : page.child? k = none) :
      Owner pages k g g
  | step {g c h : γ} {page : Page α γ ρ} (hg : pages g = some page)
      (hk : page.child? k = some c) (hrest : Owner pages k c h) : Owner pages k g h

/-- The page at which reading a word ends, following at most `n` edges. -/
def ownerOf (pages : Pages α γ ρ) : ℕ → γ → List α → Option γ
  | n, g, k =>
    match pages g with
    | none => none
    | some page =>
      match page.child? k with
      | none => some g
      | some c =>
        match n with
        | 0 => none
        | n + 1 => ownerOf pages n c k

/-- Reading `k` from page `g` gives `v`. -/
inductive Reads (pages : Pages α γ ρ) (k : List α) (v : Option ρ) : γ → Prop
  | here {g : γ} {page : Page α γ ρ} (hg : pages g = some page) (hk : page.child? k = none)
      (hv : page.records k = v) : Reads pages k v g
  | step {g c : γ} {page : Page α γ ρ} (hg : pages g = some page)
      (hk : page.child? k = some c) (hrest : Reads pages k v c) : Reads pages k v g

variable {pages : Pages α γ ρ} {page : Page α γ ρ} {g c : γ} {k p : List α}

/-! ## Covering edges -/

lemma child?_eq_none : page.child? k = none ↔ ∀ e ∈ page.edges, ¬ e.1 <+: k := by
  simp [Page.child?, find?_eq_none, isPrefixOf_iff_prefix]

lemma mem_edges_of_child? (h : page.child? k = some c) : ∃ p, (p, c) ∈ page.edges ∧ p <+: k := by
  obtain ⟨e, he, rfl⟩ := Option.map_eq_some_iff.mp h
  exact ⟨e.1, mem_of_find?_eq_some he,
    isPrefixOf_iff_prefix.mp (by simpa using find?_some he)⟩

/-- No path of an edge continues the path of another. -/
def Apart (edges : List (List α × γ)) : Prop :=
  ∀ e ∈ edges, ∀ f ∈ edges, e.1 <+: f.1 → e = f

/-- With paths apart, a covering edge is the one that is followed. -/
lemma child?_of_mem (hapart : Apart page.edges) (he : (p, c) ∈ page.edges) (hk : p <+: k) :
    page.child? k = some c := by
  have hsome : (page.edges.find? (fun e => e.1.isPrefixOf k)).isSome = true := by
    rw [find?_isSome]
    exact ⟨(p, c), he, by simpa [List.isPrefixOf_iff_prefix] using hk⟩
  obtain ⟨e, hfind⟩ := Option.isSome_iff_exists.mp hsome
  have hmem := mem_of_find?_eq_some hfind
  have hek : e.1 <+: k := isPrefixOf_iff_prefix.mp (by simpa using find?_some hfind)
  have heq : e = (p, c) := by
    rcases prefix_or_prefix_of_prefix hek hk with h | h
    · exact hapart e hmem (p, c) he h
    · exact (hapart (p, c) he e hmem h).symm
  rw [Page.child?, hfind, heq]
  rfl

/-! ## Shape and totality -/

/-- The page fits its region: edges lead to strictly smaller regions and are apart. -/
structure Shaped (region : γ → List α) (g : γ) (page : Page α γ ρ) : Prop where
  child : ∀ p c, (p, c) ∈ page.edges → region c = p
  deeper : ∀ p c, (p, c) ∈ page.edges → region g <+: p ∧ (region g).length < p.length
  apart : Apart page.edges

/-- Every edge leads to a page. -/
def Closed (pages : Pages α γ ρ) : Prop :=
  ∀ g page, pages g = some page → ∀ p c, (p, c) ∈ page.edges → pages c ≠ none

/-- A closed forest of shaped pages. -/
structure WellShaped (region : γ → List α) (pages : Pages α γ ρ) : Prop where
  shaped : ∀ g page, pages g = some page → Shaped region g page
  closed : Closed pages

lemma Shaped.child_region {region : γ → List α} (hs : Shaped region g page)
    (hk : page.child? k = some c) :
    region c <+: k ∧ (region g).length < (region c).length := by
  obtain ⟨p, hmem, hpk⟩ := mem_edges_of_child? hk
  rw [hs.child p c hmem]
  exact ⟨hpk, (hs.deeper p c hmem).2⟩

lemma reads_functional {v w : Option ρ} (h₁ : Reads pages k v g) (h₂ : Reads pages k w g) :
    v = w := by
  induction h₁ with
  | here hg hk hv =>
    cases h₂ with
    | here hg' hk' hv' =>
      cases hg.symm.trans hg'
      exact hv.symm.trans hv'
    | step hg' hk' _ =>
      cases hg.symm.trans hg'
      exact absurd (hk.symm.trans hk') nofun
  | step hg hk _ ih =>
    cases h₂ with
    | here hg' hk' hv' =>
      cases hg.symm.trans hg'
      exact absurd (hk.symm.trans hk') nofun
    | step hg' hk' hrest =>
      cases hg.symm.trans hg'
      cases hk.symm.trans hk'
      exact ih hrest

section Total

variable {region : γ → List α}

/-- In a well shaped forest a read ends, and fuel for the rest of the word is enough: what holds
where it ends, and is carried back over an edge, holds where it starts. -/
lemma WellShaped.read_induction (hw : WellShaped region pages) {P : ℕ → γ → Prop}
    (here : ∀ n g page, pages g = some page → page.child? k = none → P n g)
    (step : ∀ n g c page, pages g = some page → page.child? k = some c → P n c → P (n + 1) g)
    (n : ℕ) (hg : pages g ≠ none) (hk : region g <+: k) (hn : k.length ≤ (region g).length + n) :
    P n g := by
  induction n generalizing g with
  | zero =>
    obtain ⟨page, hpage⟩ := Option.ne_none_iff_exists'.mp hg
    cases hc : page.child? k with
    | none => exact here 0 g page hpage hc
    | some c =>
      obtain ⟨hck, hlt⟩ := (hw.shaped g page hpage).child_region hc
      have := hck.length_le
      omega
  | succ n ih =>
    obtain ⟨page, hpage⟩ := Option.ne_none_iff_exists'.mp hg
    cases hc : page.child? k with
    | none => exact here (n + 1) g page hpage hc
    | some c =>
      obtain ⟨hck, hlt⟩ := (hw.shaped g page hpage).child_region hc
      obtain ⟨p, hmem, -⟩ := mem_edges_of_child? hc
      exact step n g c page hpage hc (ih (hw.closed g page hpage p c hmem) hck (by omega))

lemma lookup_here (hg : pages g = some page) (hk : page.child? k = none) (n : ℕ) :
    lookup pages n g k = page.records k := by
  rw [lookup, hg]
  simp only [hk]

lemma lookup_step (hg : pages g = some page) (hk : page.child? k = some c) (n : ℕ) :
    lookup pages (n + 1) g k = lookup pages n c k := by
  rw [lookup, hg]
  simp only [hk]

lemma reads_lookup (hw : WellShaped region pages) (n : ℕ) (hg : pages g ≠ none)
    (hk : region g <+: k) (hn : k.length ≤ (region g).length + n) :
    Reads pages k (lookup pages n g k) g := by
  refine hw.read_induction (P := fun n g => Reads pages k (lookup pages n g k) g) ?_ ?_ n hg hk hn
  · intro n g page hpage hc
    exact .here hpage hc (lookup_here hpage hc n).symm
  · intro n g c page hpage hc hrest
    exact .step hpage hc (lookup_step hpage hc n ▸ hrest)

/-- Reading from a root in charge of all words is `contents`. -/
theorem reads_contents (hw : WellShaped region pages) {root : γ} (hroot : pages root ≠ none)
    (hregion : region root = []) (k : List α) : Reads pages k (contents pages root k) root :=
  reads_lookup hw k.length hroot (by rw [hregion]; exact nil_prefix) (by simp [hregion])

theorem contents_eq_of_reads (hw : WellShaped region pages) {root : γ} (hroot : pages root ≠ none)
    (hregion : region root = []) {v : Option ρ} (h : Reads pages k v root) :
    contents pages root k = v :=
  reads_functional (reads_contents hw hroot hregion k) h

lemma lookup_of_subset {pages' : Pages α γ ρ} (hw : WellShaped region pages)
    (hsub : ∀ h pg, pages h = some pg → pages' h = some pg) (n : ℕ) (hg : pages g ≠ none)
    (hk : region g <+: k) (hn : k.length ≤ (region g).length + n) :
    lookup pages' n g k = lookup pages n g k := by
  refine hw.read_induction
    (P := fun n g => lookup pages' n g k = lookup pages n g k) ?_ ?_ n hg hk hn
  · intro n g page hpage hc
    rw [lookup_here hpage hc, lookup_here (hsub g page hpage) hc]
  · intro n g c page hpage hc hrest
    rw [lookup_step hpage hc, lookup_step (hsub g page hpage) hc, hrest]

/-- A predicate of the owning page's record carries over to what is read. -/
lemma Reads.owned {v : Option ρ} {P : Option ρ → Prop}
    (hshaped : ∀ g page, pages g = some page → Shaped region g page)
    (hP : ∀ g page, pages g = some page → region g <+: k → page.child? k = none →
      P (page.records k))
    (h : Reads pages k v g) (hk : region g <+: k) : P v := by
  induction h with
  | here hg hc hv => exact hv ▸ hP _ _ hg hk hc
  | step hg hc _ ih => exact ih ((hshaped _ _ hg).child_region hc).1

end Total

/-! ## Writing one record -/

/-- Put `r` under `k` in a page. -/
def Page.setRecord (page : Page α γ ρ) (k : List α) (r : Option ρ) : Page α γ ρ :=
  { page with records := Function.update page.records k r }

section Update

variable [DecidableEq γ]

/-- Replacing a page by one with the same edges and the same record for `k` moves no read
of `k`. -/
lemma reads_update {page' : Page α γ ρ} {v : Option ρ} (hg : pages g = some page)
    (hedges : page'.edges = page.edges) (hk : page'.records k = page.records k) {h : γ}
    (hr : Reads pages k v h) : Reads (update pages g (some page')) k v h := by
  have hchild : page'.child? k = page.child? k := by rw [Page.child?, hedges, Page.child?]
  induction hr with
  | @here h pg hh hc hv =>
    rcases eq_or_ne h g with rfl | hne
    · cases hg.symm.trans hh
      exact .here (update_self _ _ _) (hchild.trans hc) (hk.trans hv)
    · exact .here ((update_of_ne hne _ _).trans hh) hc hv
  | @step h c pg hh hc _ ih =>
    rcases eq_or_ne h g with rfl | hne
    · cases hg.symm.trans hh
      exact .step (update_self _ _ _) (hchild.trans hc) ih
    · exact .step ((update_of_ne hne _ _).trans hh) hc ih

lemma reads_setRecord_self {root : γ} (hown : Owner pages k root g) (hg : pages g = some page)
    (r : Option ρ) :
    Reads (update pages g (some (page.setRecord k r))) k r root := by
  induction hown with
  | here hg' hk =>
    cases hg'.symm.trans hg
    exact .here (update_self _ _ _) hk (update_self _ _ _)
  | @step h c g' pg hh hk hrest ih =>
    rcases eq_or_ne h g' with rfl | hne
    · cases hh.symm.trans hg
      exact .step (update_self _ _ _) hk (ih hg)
    · exact .step ((update_of_ne hne _ _).trans hh) hk (ih hg)

lemma reads_setRecord_of_ne {k' : List α} (hne : k' ≠ k) (hg : pages g = some page)
    (r : Option ρ) {v : Option ρ} {h : γ} (hr : Reads pages k' v h) :
    Reads (update pages g (some (page.setRecord k r))) k' v h := by
  refine reads_update hg ?_ ?_ hr
  · rfl
  · exact update_of_ne hne _ _

end Update

/-! ## Moving a part of a page out, and back -/

/-- The part of a page below a path. -/
def Page.below (page : Page α γ ρ) (p : List α) : Page α γ ρ where
  records k := if p.isPrefixOf k then page.records k else none
  edges := page.edges.filter (fun e => p.isPrefixOf e.1)

/-- The page with an edge in place of the part below a path. -/
def Page.spill (page : Page α γ ρ) (p : List α) (c : γ) : Page α γ ρ where
  records k := if p.isPrefixOf k then none else page.records k
  edges := (p, c) :: page.edges.filter (fun e => !p.isPrefixOf e.1)

/-- The page with the child page in place of the edge to it. -/
def Page.absorb (page : Page α γ ρ) (p : List α) (child : Page α γ ρ) : Page α γ ρ where
  records k := if p.isPrefixOf k then child.records k else page.records k
  edges := page.edges.filter (fun e => e.1 ≠ p) ++ child.edges

section Records

variable {child : Page α γ ρ}

lemma below_records (h : p <+: k) : (page.below p).records k = page.records k :=
  if_pos (List.isPrefixOf_iff_prefix.mpr h)

lemma spill_records (h : ¬ p <+: k) : (page.spill p c).records k = page.records k :=
  if_neg (fun hk => h (List.isPrefixOf_iff_prefix.mp hk))

lemma absorb_records_below (h : p <+: k) :
    (page.absorb p child).records k = child.records k :=
  if_pos (List.isPrefixOf_iff_prefix.mpr h)

lemma absorb_records_outside (h : ¬ p <+: k) :
    (page.absorb p child).records k = page.records k :=
  if_neg (fun hk => h (List.isPrefixOf_iff_prefix.mp hk))

end Records

section Spill

variable {region : γ → List α}

omit [DecidableEq α] in
lemma apart_filter {edges : List (List α × γ)} (h : Apart edges) (f : List α × γ → Bool) :
    Apart (edges.filter f) := fun e he e' he' hp =>
  h e (mem_filter.mp he).1 e' (mem_filter.mp he').1 hp

variable {e : List α × γ}

lemma mem_below_edges : e ∈ (page.below p).edges ↔ e ∈ page.edges ∧ p <+: e.1 := by
  simp [Page.below, mem_filter, isPrefixOf_iff_prefix]

lemma mem_spill_edges :
    e ∈ (page.spill p c).edges ↔ e = (p, c) ∨ (e ∈ page.edges ∧ ¬ p <+: e.1) := by
  simp [Page.spill, mem_filter, ← isPrefixOf_iff_prefix]

variable {child : Page α γ ρ}

lemma mem_absorb_edges :
    e ∈ (page.absorb p child).edges ↔ (e ∈ page.edges ∧ e.1 ≠ p) ∨ e ∈ child.edges := by
  simp [Page.absorb, mem_filter]

lemma apart_spill (h : Apart page.edges) (hp : ∀ e ∈ page.edges, ¬ e.1 <+: p) :
    Apart (page.spill p c).edges := by
  intro e he f hf hef
  rcases mem_spill_edges.mp he with rfl | ⟨he, hpe⟩
  · rcases mem_spill_edges.mp hf with rfl | ⟨hf, hpf⟩
    · rfl
    · exact absurd hef hpf
  · rcases mem_spill_edges.mp hf with rfl | ⟨hf, hpf⟩
    · exact absurd hef (hp e he)
    · exact h e he f hf hef

omit [DecidableEq α] in
/-- A path that an edge of another path cannot meet: both start a common word only if one
starts the other. -/
lemma not_covered_of_apart (h : Apart page.edges) (he : e ∈ page.edges) (hc : (p, c) ∈ page.edges)
    (hne : e.1 ≠ p) (hk : e.1 <+: k) : ¬ p <+: k := by
  intro hpk
  refine hne ?_
  rcases prefix_or_prefix_of_prefix hk hpk with h' | h'
  · exact congrArg Prod.fst (h e he (p, c) hc h')
  · exact congrArg Prod.fst (h (p, c) hc e he h').symm

lemma apart_absorb (h : Apart page.edges) (hc : (p, c) ∈ page.edges) (hchild : Apart child.edges)
    (hbelow : ∀ e ∈ child.edges, p <+: e.1) : Apart (page.absorb p child).edges := by
  intro e he f hf hef
  rcases mem_absorb_edges.mp he with ⟨he, hep⟩ | he
  · rcases mem_absorb_edges.mp hf with ⟨hf, hfp⟩ | hf
    · exact h e he f hf hef
    · exact absurd (hbelow f hf) (not_covered_of_apart h he hc hep hef)
  · rcases mem_absorb_edges.mp hf with ⟨hf, hfp⟩ | hf
    · exact absurd ((hbelow e he).trans hef) (not_covered_of_apart h hf hc hfp (prefix_refl _))
    · exact hchild e he f hf hef

lemma Shaped.below (hs : Shaped region g page) (hc : region c = p)
    (hp : ∀ e ∈ page.edges, ¬ e.1 <+: p) : Shaped region c (page.below p) := by
  refine ⟨?_, ?_, apart_filter hs.apart _⟩
  · intro q d hq
    exact hs.child q d (mem_below_edges.mp hq).1
  · intro q d hq
    obtain ⟨hmem, hpq⟩ := mem_below_edges.mp hq
    rw [hc]
    refine ⟨hpq, lt_of_le_of_ne hpq.length_le (fun hlen => ?_)⟩
    exact hp _ hmem (hpq.eq_of_length hlen ▸ prefix_refl _)

lemma Shaped.spill (hs : Shaped region g page) (hc : region c = p)
    (hgp : region g <+: p) (hlt : (region g).length < p.length)
    (hp : ∀ e ∈ page.edges, ¬ e.1 <+: p) : Shaped region g (page.spill p c) := by
  refine ⟨?_, ?_, apart_spill hs.apart hp⟩
  · intro q d hq
    rcases mem_spill_edges.mp hq with heq | ⟨hmem, -⟩
    · cases heq
      exact hc
    · exact hs.child q d hmem
  · intro q d hq
    rcases mem_spill_edges.mp hq with heq | ⟨hmem, -⟩
    · cases heq
      exact ⟨hgp, hlt⟩
    · exact hs.deeper q d hmem

lemma Shaped.absorb (hs : Shaped region g page) (hc : (p, c) ∈ page.edges)
    (hchild : Shaped region c child) : Shaped region g (page.absorb p child) := by
  have hrc : region c = p := hs.child p c hc
  have hbelow : ∀ e ∈ child.edges, p <+: e.1 := fun e he => hrc ▸ (hchild.deeper e.1 e.2 he).1
  refine ⟨?_, ?_, apart_absorb hs.apart hc hchild.apart hbelow⟩
  · intro q d hq
    rcases mem_absorb_edges.mp hq with ⟨hmem, -⟩ | hmem
    · exact hs.child q d hmem
    · exact hchild.child q d hmem
  · intro q d hq
    rcases mem_absorb_edges.mp hq with ⟨hmem, -⟩ | hmem
    · exact hs.deeper q d hmem
    · obtain ⟨hgp, hlt⟩ := hs.deeper p c hc
      obtain ⟨hpq, hlt'⟩ := hchild.deeper q d hmem
      rw [hrc] at hpq hlt'
      exact ⟨hgp.trans hpq, hlt.trans hlt'⟩

lemma Shaped.setRecord (hs : Shaped region g page) (k : List α) (r : Option ρ) :
    Shaped region g (page.setRecord k r) :=
  { hs with }

omit [DecidableEq α] in
/-- A page does not see a change of the regions of pages it does not name. -/
lemma Shaped.congr {region' : γ → List α} (hs : Shaped region g page)
    (hg : region' g = region g) (hc : ∀ p c, (p, c) ∈ page.edges → region' c = region c) :
    Shaped region' g page :=
  ⟨fun p c h => (hc p c h).trans (hs.child p c h), fun p c h => hg ▸ hs.deeper p c h, hs.apart⟩

variable [DecidableEq γ]

lemma reads_spill {v : Option ρ} (hg : pages g = some page) (hc : pages c = none)
    (hapart : Apart page.edges) (hp : ∀ e ∈ page.edges, ¬ e.1 <+: p) {h : γ}
    (hr : Reads pages k v h) :
    Reads (update (update pages c (some (page.below p))) g
      (some (page.spill p c))) k v h := by
  have hcg : c ≠ g := by
    rintro rfl
    simp [hc] at hg
  have hpc : update (update pages c (some (page.below p))) g
      (some (page.spill p c)) c = some (page.below p) := by
    rw [update_of_ne hcg, update_self]
  have hother : ∀ h pg, h ≠ g → pages h = some pg →
      update (update pages c (some (page.below p))) g
        (some (page.spill p c)) h = some pg := by
    intro h pg hne hh
    have hhc : h ≠ c := by
      rintro rfl
      simp [hc] at hh
    rw [update_of_ne hne, update_of_ne hhc, hh]
  have hmemp : (p, c) ∈ (page.spill p c).edges := mem_spill_edges.mpr (.inl rfl)
  have hapart' := apart_spill (c := c) hapart hp
  induction hr with
  | @here h pg hh hk hv =>
    rcases eq_or_ne h g with rfl | hne
    · cases hg.symm.trans hh
      have hnone := child?_eq_none.mp hk
      by_cases hpk : p <+: k
      · -- the word is in the part that moves
        refine .step (update_self _ _ _) (child?_of_mem hapart' hmemp hpk)
          (.here hpc (child?_eq_none.mpr ?_) ?_)
        · exact fun e he => hnone e (mem_below_edges.mp he).1
        · exact (below_records hpk).trans hv
      · refine .here (update_self _ _ _) (child?_eq_none.mpr ?_) ?_
        · intro e he
          rcases mem_spill_edges.mp he with rfl | ⟨he, -⟩
          · exact hpk
          · exact hnone e he
        · exact (spill_records hpk).trans hv
    · exact .here (hother h pg hne hh) hk hv
  | @step h d pg hh hk _ ih =>
    rcases eq_or_ne h g with rfl | hne
    · cases hg.symm.trans hh
      obtain ⟨q, hq, hqk⟩ := mem_edges_of_child? hk
      by_cases hpk : p <+: k
      · have hpq : p <+: q := (List.prefix_or_prefix_of_prefix hpk hqk).resolve_right (hp _ hq)
        refine .step (update_self _ _ _) (child?_of_mem hapart' hmemp hpk)
          (.step hpc ?_ ih)
        exact child?_of_mem (apart_filter hapart _) (mem_below_edges.mpr ⟨hq, hpq⟩) hqk
      · refine .step (update_self _ _ _) ?_ ih
        refine child?_of_mem hapart' (mem_spill_edges.mpr (.inr ⟨hq, ?_⟩)) hqk
        exact fun hpq => hpk (hpq.trans hqk)
    · exact .step (hother h pg hne hh) hk ih

lemma reads_absorb {v : Option ρ} (hg : pages g = some page) (hc : pages c = some child)
    (hs : Shaped region g page) (hchild : Shaped region c child) (hedge : (p, c) ∈ page.edges)
    {h : γ} (hr : Reads pages k v h) :
    Reads (update pages g (some (page.absorb p child))) k v h := by
  have hrc : region c = p := hs.child p c hedge
  have hcg : c ≠ g := by
    rintro rfl
    have := (hs.deeper p c hedge).2
    rw [hrc] at this
    exact lt_irrefl _ this
  have hbelow : ∀ e ∈ child.edges, p <+: e.1 := fun e he => hrc ▸ (hchild.deeper e.1 e.2 he).1
  have hapart' := apart_absorb hs.apart hedge hchild.apart hbelow
  have hpc : update pages g (some (page.absorb p child)) c = some child := by
    rw [update_of_ne hcg, hc]
  induction hr with
  | @here h pg hh hk hv =>
    rcases eq_or_ne h g with rfl | hne
    · cases hg.symm.trans hh
      have hnone := child?_eq_none.mp hk
      have hpk : ¬ p <+: k := hnone _ hedge
      refine .here (update_self _ _ _) (child?_eq_none.mpr ?_) ?_
      · intro e he
        rcases mem_absorb_edges.mp he with ⟨he, -⟩ | he
        · exact hnone e he
        · exact fun hek => hpk ((hbelow e he).trans hek)
      · exact (absorb_records_outside hpk).trans hv
    · exact .here ((update_of_ne hne _ _).trans hh) hk hv
  | @step h d pg hh hk _ ih =>
    rcases eq_or_ne h g with rfl | hne
    · cases hg.symm.trans hh
      obtain ⟨q, hq, hqk⟩ := mem_edges_of_child? hk
      by_cases hqp : q = p
      · -- the read went into the child: look at what it does there
        subst hqp
        obtain rfl : d = c :=
          congrArg Prod.snd (hs.apart _ hq _ hedge (prefix_refl _))
        cases ih with
        | here hd hkd hv =>
          cases hpc.symm.trans hd
          refine .here (update_self _ _ _) (child?_eq_none.mpr ?_) ?_
          · intro e he
            rcases mem_absorb_edges.mp he with ⟨he, hne⟩ | he
            · exact fun hek => not_covered_of_apart hs.apart he hedge hne hek hqk
            · exact child?_eq_none.mp hkd e he
          · exact (absorb_records_below hqk).trans hv
        | step hd hkd hrest =>
          cases hpc.symm.trans hd
          obtain ⟨q', hq', hqk'⟩ := mem_edges_of_child? hkd
          exact .step (update_self _ _ _)
            (child?_of_mem hapart' (mem_absorb_edges.mpr (.inr hq')) hqk') hrest
      · exact .step (update_self _ _ _)
          (child?_of_mem hapart' (mem_absorb_edges.mpr (.inl ⟨hq, hqp⟩)) hqk) ih
    · exact .step ((update_of_ne hne _ _).trans hh) hk ih

end Spill

/-! ## Whole forests -/

section Forest

variable {region : γ → List α} {root : γ}

variable {h : γ}

lemma exists_ownerOf (hw : WellShaped region pages) (n : ℕ) (hg : pages g ≠ none)
    (hk : region g <+: k) (hn : k.length ≤ (region g).length + n) :
    ∃ h page, ownerOf pages n g k = some h ∧ pages h = some page ∧ Owner pages k g h := by
  refine hw.read_induction (P := fun n g => ∃ h page, ownerOf pages n g k = some h ∧
    pages h = some page ∧ Owner pages k g h) ?_ ?_ n hg hk hn
  · intro n g page hpage hc
    exact ⟨g, page, by rw [ownerOf, hpage]; simp [hc], hpage, .here hpage hc⟩
  · rintro n g c page hpage hc ⟨h, pg, hown, hh, howner⟩
    exact ⟨h, pg, by rw [ownerOf, hpage]; simpa [hc] using hown, hh, .step hpage hc howner⟩

lemma Owner.reads (hown : Owner pages k g h) (hh : pages h = some page) :
    Reads pages k (page.records k) g := by
  induction hown with
  | here hg hk =>
    cases hg.symm.trans hh
    exact .here hg hk rfl
  | step hg hc _ ih => exact .step hg hc (ih hh)

/-- A root page in charge of all words. -/
structure Rooted (region : γ → List α) (pages : Pages α γ ρ) (root : γ) : Prop extends
    WellShaped region pages where
  page : pages root ≠ none
  all : region root = []

variable (hr : Rooted region pages root)
include hr

lemma Rooted.reads (k : List α) :
    Reads pages k (contents pages root k) root :=
  reads_contents hr.toWellShaped hr.page hr.all k

lemma Rooted.contents_eq {v : Option ρ} (h : Reads pages k v root) : contents pages root k = v :=
  contents_eq_of_reads hr.toWellShaped hr.page hr.all h

lemma Rooted.contents_congr {region' : γ → List α} {pages' : Pages α γ ρ}
    (hr' : Rooted region' pages' root) (h : ∀ k v, Reads pages k v root → Reads pages' k v root) :
    contents pages' root = contents pages root :=
  funext fun k => hr'.contents_eq (h k _ (hr.reads k))

variable [DecidableEq γ]

omit [DecidableEq α] in
/-- Replacing a page by a shaped one all of whose edges lead to pages. -/
lemma Rooted.update {page' : Page α γ ρ} (hs : Shaped region g page')
    (hclosed : ∀ p c, (p, c) ∈ page'.edges → pages c ≠ none) :
    Rooted region (update pages g (some page')) root := by
  have hmono : ∀ h, pages h ≠ none → Function.update pages g (some page') h ≠ none :=
    fun _ => Table.update_ne_none g page'
  refine ⟨⟨?_, ?_⟩, hmono root hr.page, hr.all⟩
  · intro h pg hh
    rcases Table.update_cases hh with ⟨rfl, rfl⟩ | ⟨-, hh⟩
    · exact hs
    · exact hr.shaped h pg hh
  · intro h pg hh p c hpc
    rcases Table.update_cases hh with ⟨rfl, rfl⟩ | ⟨-, hh⟩
    · exact hmono c (hclosed p c hpc)
    · exact hmono c (hr.closed h pg hh p c hpc)

/-- Write a record where its word is owned. -/
def write (pages : Pages α γ ρ) (root : γ) (k : List α) (r : Option ρ) : Pages α γ ρ :=
  match ownerOf pages k.length root k with
  | none => pages
  | some g => Function.update pages g ((pages g).map (fun page => page.setRecord k r))

lemma Rooted.write_eq (k : List α) (r : Option ρ) :
    ∃ g page, Owner pages k root g ∧ pages g = some page ∧
      write pages root k r = Function.update pages g (some (page.setRecord k r)) := by
  have hk : region root <+: k := by
    rw [hr.all]
    exact nil_prefix
  obtain ⟨g, page, hown, hg, howner⟩ := exists_ownerOf hr.toWellShaped k.length hr.page hk
    (Nat.le_add_left _ _)
  refine ⟨g, page, howner, hg, ?_⟩
  rw [write, hown]
  simp [hg]

lemma Rooted.write (k : List α) (r : Option ρ) :
    Rooted region (write pages root k r) root := by
  obtain ⟨g, page, -, hg, heq⟩ := hr.write_eq k r
  rw [heq]
  exact hr.update ((hr.shaped g page hg).setRecord k r) (hr.closed g page hg)

/-- Writing a record changes the contents in one place. -/
theorem Rooted.contents_write (k : List α) (r : Option ρ) :
    contents (PrefixForest.write pages root k r) root =
      Function.update (contents pages root) k r := by
  funext k'
  obtain ⟨g, page, hown, hg, heq⟩ := hr.write_eq k r
  have hr' := hr.write k r
  rw [heq] at hr' ⊢
  refine hr'.contents_eq ?_
  rcases eq_or_ne k' k with rfl | hne
  · rw [update_self]
    exact reads_setRecord_self hown hg r
  · rw [update_of_ne hne]
    exact reads_setRecord_of_ne hne hg r (hr.reads k')

/-- The pages after the part of `g` below `p` has moved to `c`. -/
def spill (pages : Pages α γ ρ) (g : γ) (page : Page α γ ρ) (p : List α) (c : γ) :
    Pages α γ ρ :=
  Function.update (Function.update pages c (some (page.below p))) g (some (page.spill p c))

/-- A part of a page may move out to a page nobody names. -/
structure Spillable (region : γ → List α) (pages : Pages α γ ρ) (g : γ) (page : Page α γ ρ)
    (p : List α) (c : γ) : Prop where
  page_eq : pages g = some page
  free : pages c = none
  unnamed : ∀ h pg, pages h = some pg → ∀ q, (q, c) ∉ pg.edges
  below : region g <+: p
  deeper : (region g).length < p.length
  uncovered : ∀ e ∈ page.edges, ¬ e.1 <+: p

omit [DecidableEq α] in
lemma Spillable.shaped (hs : Spillable region pages g page p c) {pg : Page α γ ρ}
    (hh : pages h = some pg) : Shaped (update region c p) h pg := by
  have hhc : h ≠ c := by
    rintro rfl
    simp [hs.free] at hh
  refine (hr.shaped h pg hh).congr (update_of_ne hhc _ _) (fun q d hq => ?_)
  refine update_of_ne ?_ _ _
  rintro rfl
  exact hs.unnamed h pg hh q hq

lemma Rooted.spill (hs : Spillable region pages g page p c) :
    Rooted (Function.update region c p) (spill pages g page p c) root := by
  have hgc : g ≠ c := by
    rintro rfl
    exact absurd hs.page_eq (by simp [hs.free])
  have hrootc : root ≠ c := by
    rintro rfl
    exact hr.page hs.free
  have hpage := hs.shaped hr hs.page_eq
  have hreg : Function.update region c p c = p := Function.update_self _ _ _
  have hregg : Function.update region c p g = region g := Function.update_of_ne hgc _ _
  -- first the new page, then the edge to it
  have hchild : Rooted (Function.update region c p)
      (Function.update pages c (some (page.below p))) root := by
    refine Rooted.update ⟨⟨fun h pg hh => hs.shaped hr hh, hr.closed⟩, hr.page, ?_⟩
      (hpage.below hreg hs.uncovered) ?_
    · rw [update_of_ne hrootc, hr.all]
    · exact fun q d hq => hr.closed g page hs.page_eq q d (mem_below_edges.mp hq).1
  refine hchild.update (hpage.spill hreg (hregg ▸ hs.below) (hregg ▸ hs.deeper) hs.uncovered) ?_
  intro q d hq
  rcases mem_spill_edges.mp hq with heq | ⟨hmem, -⟩
  · cases heq
    simp
  · rcases eq_or_ne d c with rfl | hdc
    · simp
    · rw [update_of_ne hdc]
      exact hr.closed g page hs.page_eq q d hmem

/-- Moving a part of a page out changes no contents. -/
theorem Rooted.contents_spill (hs : Spillable region pages g page p c) :
    contents (PrefixForest.spill pages g page p c) root = contents pages root :=
  hr.contents_congr (hr.spill hs) fun _ _ h =>
    reads_spill hs.page_eq hs.free (hr.shaped g page hs.page_eq).apart hs.uncovered h

/-- The pages after the child `c` has been folded into `g`. -/
def absorb (pages : Pages α γ ρ) (g : γ) (page : Page α γ ρ) (p : List α)
    (child : Page α γ ρ) : Pages α γ ρ :=
  Function.update pages g (some (page.absorb p child))

variable {child : Page α γ ρ}

lemma Rooted.absorb (hg : pages g = some page) (hc : pages c = some child)
    (hedge : (p, c) ∈ page.edges) :
    Rooted region (absorb pages g page p child) root := by
  refine hr.update ((hr.shaped g page hg).absorb hedge (hr.shaped c child hc)) ?_
  intro q d hq
  rcases mem_absorb_edges.mp hq with ⟨hmem, -⟩ | hmem
  · exact hr.closed g page hg q d hmem
  · exact hr.closed c child hc q d hmem

/-- Folding a child page into its parent changes no contents. -/
theorem Rooted.contents_absorb (hg : pages g = some page) (hc : pages c = some child)
    (hedge : (p, c) ∈ page.edges) :
    contents (PrefixForest.absorb pages g page p child) root = contents pages root :=
  hr.contents_congr (hr.absorb hg hc hedge) fun _ _ h =>
    reads_absorb hg hc (hr.shaped g page hg) (hr.shaped c child hc) hedge h

omit [DecidableEq γ] in
/-- What is in a forest is in every store that has its pages. -/
theorem Rooted.contents_of_subset {pages' : Pages α γ ρ}
    (hsub : ∀ h pg, pages h = some pg → pages' h = some pg) :
    contents pages' root = contents pages root :=
  funext fun k => lookup_of_subset hr.toWellShaped hsub k.length hr.page
    (by rw [hr.all]; exact nil_prefix) (Nat.le_add_left _ _)

/-! ## Forests without shared children -/

/-- No two pages have an edge to the same page. -/
def OneParent (pages : Pages α γ ρ) : Prop :=
  ∀ g h pg pg' p q c, pages g = some pg → pages h = some pg' → (p, c) ∈ pg.edges →
    (q, c) ∈ pg'.edges → g = h

omit [DecidableEq α] hr in
lemma OneParent.update (ho : OneParent pages) {page' : Page α γ ρ} (hg : pages g = some page)
    (hedges : ∀ e ∈ page'.edges, e ∈ page.edges) :
    OneParent (Function.update pages g (some page')) := by
  have hold : ∀ h pg, Function.update pages g (some page') h = some pg →
      ∃ pg₀, pages h = some pg₀ ∧ ∀ e ∈ pg.edges, e ∈ pg₀.edges := by
    intro h pg hh
    rcases Table.update_cases hh with ⟨rfl, rfl⟩ | ⟨-, hh⟩
    · exact ⟨page, hg, hedges⟩
    · exact ⟨pg, hh, fun e he => he⟩
  intro h h' pg pg' p q c hh hh' hp hq
  obtain ⟨pg₀, hpg, hin⟩ := hold h pg hh
  obtain ⟨pg₀', hpg', hin'⟩ := hold h' pg' hh'
  exact ho h h' pg₀ pg₀' p q c hpg hpg' (hin _ hp) (hin' _ hq)

lemma OneParent.write (ho : OneParent pages) (k : List α) (r : Option ρ) :
    OneParent (PrefixForest.write pages root k r) := by
  obtain ⟨g, page, -, hg, heq⟩ := hr.write_eq k r
  rw [heq]
  exact ho.update hg (fun e he => he)

lemma OneParent.spill (ho : OneParent pages) (hs : Spillable region pages g page p c) :
    OneParent (PrefixForest.spill pages g page p c) := by
  have hg := hs.page_eq
  -- an edge of the new forest is the new one, or an old one at its old page or moved to `c`
  have hcases : ∀ h pg q d, PrefixForest.spill pages g page p c h = some pg → (q, d) ∈ pg.edges →
      (h = g ∧ d = c) ∨ ∃ h₀ pg₀, pages h₀ = some pg₀ ∧ (q, d) ∈ pg₀.edges ∧
        h = if h₀ = g ∧ p <+: q then c else h₀ := by
    intro h pg q d hh hq
    rcases Table.update_cases hh with ⟨rfl, rfl⟩ | ⟨hhg, hh⟩
    · rcases mem_spill_edges.mp hq with heq | ⟨hmem, hnp⟩
      · exact .inl ⟨rfl, (Prod.mk.inj heq).2⟩
      · exact .inr ⟨h, page, hg, hmem, by simp [hnp]⟩
    · rcases Table.update_cases hh with ⟨rfl, rfl⟩ | ⟨-, hh⟩
      · obtain ⟨hmem, hpq⟩ := mem_below_edges.mp hq
        exact .inr ⟨g, page, hg, hmem, by simp [hpq]⟩
      · exact .inr ⟨h, pg, hh, hq, by simp [hhg]⟩
  intro h h' pg pg' q q' d hh hh' hq hq'
  rcases hcases h pg q d hh hq with ⟨rfl, rfl⟩ | ⟨h₀, o, ho₀, hm, rfl⟩
  · rcases hcases h' pg' q' d hh' hq' with ⟨rfl, -⟩ | ⟨h₁, o', ho₁, hm', -⟩
    · rfl
    · exact absurd hm' (hs.unnamed h₁ o' ho₁ q')
  · rcases hcases h' pg' q' d hh' hq' with ⟨-, rfl⟩ | ⟨h₁, o', ho₁, hm', rfl⟩
    · exact absurd hm (hs.unnamed h₀ o ho₀ q)
    · obtain rfl := ho h₀ h₁ o o' q q' d ho₀ ho₁ hm hm'
      -- both edges lead to the region of `d`
      obtain rfl := ((hr.shaped h₀ o ho₀).child q d hm).symm.trans
        ((hr.shaped h₀ o' ho₁).child q' d hm')
      rfl

/-- The pages after the child `c` has been folded into `g` and dropped. -/
def fold (pages : Pages α γ ρ) (g : γ) (page : Page α γ ρ) (p : List α) (child : Page α γ ρ)
    (c : γ) : Pages α γ ρ :=
  Function.update (absorb pages g page p child) c none

omit hr in
lemma fold_subset (h : γ) (pg : Page α γ ρ) (hh : fold pages g page p child c h = some pg) :
    absorb pages g page p child h = some pg := by
  rcases eq_or_ne h c with rfl | hne
  · simp [fold] at hh
  · rwa [fold, update_of_ne hne] at hh

lemma absorb_unnamed (ho : OneParent pages) (hg : pages g = some page) (hc : pages c = some child)
    (hedge : (p, c) ∈ page.edges) {pg : Page α γ ρ} (hh : absorb pages g page p child h = some pg)
    (q : List α) :
    (q, c) ∉ pg.edges := by
  intro hq
  have hregion := (hr.shaped g page hg).child p c hedge
  rcases Table.update_cases hh with ⟨rfl, rfl⟩ | ⟨hne, hh⟩
  · rcases mem_absorb_edges.mp hq with ⟨hmem, hqp⟩ | hmem
    · exact hqp (((hr.shaped h page hg).child q c hmem).symm.trans hregion)
    · have hself := (hr.shaped c child hc).child q c hmem
      have := ((hr.shaped c child hc).deeper q c hmem).2
      rw [hself] at this
      exact lt_irrefl _ this
  · exact hne (ho h g pg page q p c hh hg hq hedge)

lemma Rooted.fold (ho : OneParent pages) (hg : pages g = some page) (hc : pages c = some child)
    (hedge : (p, c) ∈ page.edges) :
    Rooted region (PrefixForest.fold pages g page p child c) root := by
  have habs := hr.absorb hg hc hedge
  have hrootc : root ≠ c := by
    rintro rfl
    have hlt := ((hr.shaped g page hg).deeper p root hedge).2
    rw [← (hr.shaped g page hg).child p root hedge, hr.all] at hlt
    simp at hlt
  refine ⟨⟨fun h pg hh => habs.shaped h pg (fold_subset h pg hh), fun h pg hh q d hq => ?_⟩, ?_,
    hr.all⟩
  · have hdc : d ≠ c := by
      rintro rfl
      exact absorb_unnamed hr ho hg hc hedge (fold_subset h pg hh) q hq
    rw [PrefixForest.fold, update_of_ne hdc]
    exact habs.closed h pg (fold_subset h pg hh) q d hq
  · rw [PrefixForest.fold, update_of_ne hrootc]
    exact habs.page

/-- Folding a child page into its parent and dropping it changes no contents. -/
theorem Rooted.contents_fold (ho : OneParent pages) (hg : pages g = some page)
    (hc : pages c = some child) (hedge : (p, c) ∈ page.edges) :
    contents (PrefixForest.fold pages g page p child c) root = contents pages root := by
  rw [← hr.contents_absorb hg hc hedge]
  exact ((hr.fold ho hg hc hedge).contents_of_subset fold_subset).symm

omit hr

lemma OneParent.fold (ho : OneParent pages) (hg : pages g = some page) (hleaf : child.edges = []) :
    OneParent (PrefixForest.fold pages g page p child c) := by
  have habs : OneParent (PrefixForest.absorb pages g page p child) := by
    refine ho.update hg (fun e he => ?_)
    rcases mem_absorb_edges.mp he with ⟨hmem, -⟩ | hmem
    · exact hmem
    · simp [hleaf] at hmem
  exact fun h h' pg pg' q q' d hh hh' => habs h h' pg pg' q q' d (fold_subset h pg hh)
    (fold_subset h' pg' hh')

end Forest

end PrefixForest
