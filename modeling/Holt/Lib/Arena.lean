import Mathlib.Tactic

/-!
# Arenas of sized cells

Bodies of different sizes lie in one address space, each at the offset of its first byte.  New
bodies are placed in free bytes, which are then no longer free; old ones are rewritten in place or
forgotten.  Writing a body destroys whatever it overlaps (`write`), so that what a program leaves
intact has to be proved and is not given by the model.

The heap logic of such an arena is `Rewrites`: `a'` comes from `a` by turning the cells `old`
into the cells `new`, at the offsets of `old` or in free space, with everything apart from `old`
kept.  Its rules are those a program needs: place a body, rewrite one in place, forget some,
one change after the other, and a change beside cells it does not touch (`Rewrites.frame`).
-/

namespace Arena

open List

/-- Bodies have a size and at least one byte. -/
class Sized (β : Type) where
  size : β → ℕ
  size_pos : ∀ b, 0 < size b

export Sized (size size_pos)

variable {β τ : Type} [Sized β]

/-- A body and the offset of its first byte. -/
abbrev Cell (β : Type) := ℕ × β

/-- Bodies by offset, the bytes that are free, and the number of bodies placed so far. -/
structure Space (β : Type) where
  heap : ℕ → Option β
  free : Set ℕ
  slots : ℕ

/-- The end of a cell. -/
def stop (c : Cell β) : ℕ := c.1 + size c.2

/-- Two cells do not overlap. -/
def Apart (c d : Cell β) : Prop := stop c ≤ d.1 ∨ stop d ≤ c.1

instance (c d : Cell β) : Decidable (Apart c d) :=
  inferInstanceAs (Decidable (_ ∨ _))

/-- Put a body at an offset, over whatever it overlaps. -/
def write (heap : ℕ → Option β) (off : ℕ) (b : β) : ℕ → Option β := fun o =>
  if o = off then some b else (heap o).filter fun b' => Apart (o, b') (off, b)

/-- No byte of the cell is free. -/
def Avoids (c : Cell β) (free : Set ℕ) : Prop := ∀ n, c.1 ≤ n → n < stop c → n ∉ free

/-- The cells are there, in used space and apart from one another. -/
structure Owns (a : Space β) (cells : List (Cell β)) : Prop where
  held : ∀ c ∈ cells, a.heap c.1 = some c.2
  apart : cells.Pairwise Apart
  used : ∀ c ∈ cells, Avoids c a.free

/-- The offsets of cells. -/
def offsets (cells : List (Cell β)) : Finset ℕ := (cells.map Prod.fst).toFinset

/-- The cell lies where there was free space, and that space is used now. -/
def Fresh (a a' : Space β) (c : Cell β) : Prop :=
  ∀ n, c.1 ≤ n → n < stop c → n ∈ a.free ∧ n ∉ a'.free

/-- `old` has become `new`.  A body rewritten in place keeps its `tag` and does not grow, and new
bodies start at offsets that are `ok`. -/
structure Rewrites (tag : β → τ) (ok : ℕ → Prop) (a a' : Space β) (old new : List (Cell β)) :
    Prop where
  free_subset : a'.free ⊆ a.free
  held : ∀ c ∈ new, a'.heap c.1 = some c.2
  apart : new.Pairwise Apart
  within : ∀ c ∈ new,
    (∃ d ∈ old, c.1 = d.1 ∧ size c.2 ≤ size d.2 ∧ tag c.2 = tag d.2) ∨
    (ok c.1 ∧ Fresh a a' c)
  keeps : ∀ c : Cell β, a.heap c.1 = some c.2 → Avoids c a.free →
    (∀ d ∈ old, Apart c d) → a'.heap c.1 = some c.2
  slots : (offsets new \ offsets old).card + a.slots ≤ a'.slots

variable {tag : β → τ} {ok : ℕ → Prop} {a a₁ a₂ : Space β}
  {old mid new rest : List (Cell β)} {c d : Cell β}

lemma Apart.symm (h : Apart c d) : Apart d c := Or.symm h

lemma Apart.shrink {e : Cell β} (h : Apart c d) (hoff : e.1 = d.1)
    (hsize : size e.2 ≤ size d.2) : Apart c e := by
  unfold Apart stop at h ⊢
  omega

lemma Apart.ne (h : Apart c d) : c.1 ≠ d.1 := by
  have := size_pos c.2
  have := size_pos d.2
  unfold Apart stop at h
  omega

lemma Avoids.apart {free : Set ℕ} (hc : Avoids c free)
    (hd : ∀ n, d.1 ≤ n → n < stop d → n ∈ free) : Apart c d := by
  unfold Apart
  by_contra hover
  have hlo : c.1 ≤ max c.1 d.1 := le_max_left _ _
  have hlo' : d.1 ≤ max c.1 d.1 := le_max_right _ _
  by_cases hempty : max c.1 d.1 < stop c ∧ max c.1 d.1 < stop d
  · exact hc _ hlo hempty.1 (hd _ hlo' hempty.2)
  · have := size_pos c.2
    have := size_pos d.2
    unfold stop at *
    omega

lemma Avoids.mono {free free' : Set ℕ} (hc : Avoids c free) (hsub : free' ⊆ free) :
    Avoids c free' :=
  fun n hlo hhi hn => hc n hlo hhi (hsub hn)

lemma pairwise_perm (h : old.Pairwise Apart) (hp : old.Perm new) :
    new.Pairwise Apart :=
  (hp.pairwise_iff (fun h => h.symm)).mp h

omit [Sized β] in
lemma mem_offsets {n : ℕ} : n ∈ offsets old ↔ ∃ c ∈ old, c.1 = n := by
  simp [offsets]

lemma card_offsets (h : old.Pairwise Apart) : (offsets old).card = old.length := by
  have hnodup : (old.map Prod.fst).Nodup :=
    pairwise_map.mpr (h.imp fun happ => happ.ne)
  rw [offsets, toFinset_card_of_nodup hnodup, length_map]

omit [Sized β] in
lemma offsets_append : offsets (old ++ new) = offsets old ∪ offsets new := by
  simp [offsets]

omit [Sized β] in
lemma offsets_perm (h : old.Perm new) : offsets old = offsets new := by
  ext n
  simp only [mem_offsets, h.mem_iff]

@[simp] lemma write_same (heap : ℕ → Option β) (off : ℕ) (b : β) :
    write heap off b off = some b := by
  simp [write]

lemma write_apart {heap : ℕ → Option β} {b : β} {off : ℕ} (hheld : heap c.1 = some c.2)
    (hne : c.1 ≠ off) (hapart : Apart c (off, b)) : write heap off b c.1 = some c.2 := by
  simp [write, hne, hheld, hapart]

namespace Owns

lemma perm (h : Owns a old) (hp : old.Perm new) : Owns a new where
  held := fun c hc => h.held c (hp.mem_iff.mpr hc)
  apart := pairwise_perm h.apart hp
  used := fun c hc => h.used c (hp.mem_iff.mpr hc)

lemma sublist (h : Owns a old) (hs : new.Sublist old) : Owns a new where
  held := fun c hc => h.held c (hs.subset hc)
  apart := h.apart.sublist hs
  used := fun c hc => h.used c (hs.subset hc)

lemma nil (a : Space β) : Owns a [] where
  held := fun _ h => absurd h not_mem_nil
  apart := List.Pairwise.nil
  used := fun _ h => absurd h not_mem_nil

end Owns

namespace Rewrites

lemma owns (h : Rewrites tag ok a a₁ old new) (hold : Owns a old) :
    Owns a₁ new where
  held := h.held
  apart := h.apart
  used c hc := by
    rcases h.within c hc with ⟨d, hd, hoff, hsize, -⟩ | ⟨-, hfresh⟩
    · intro n hlo hhi hn
      apply hold.used d hd n (hoff ▸ hlo) _ (h.free_subset hn)
      unfold stop at *
      omega
    · exact fun n hlo hhi => (hfresh n hlo hhi).2

lemma drop (h : Owns a old) (hs : new.Sublist old) : Rewrites tag ok a a old new where
  free_subset := le_refl _
  held := fun c hc => h.held c (hs.subset hc)
  apart := h.apart.sublist hs
  within := fun c hc => .inl ⟨c, hs.subset hc, rfl, le_refl _, rfl⟩
  keeps := fun _ hc _ _ => hc
  slots := by
    have hnone : offsets new \ offsets old = ∅ := by
      rw [Finset.sdiff_eq_empty_iff_subset]
      intro n hn
      obtain ⟨c, hc, rfl⟩ := mem_offsets.mp hn
      exact mem_offsets.mpr ⟨c, hs.subset hc, rfl⟩
    rw [hnone, Finset.card_empty, Nat.zero_add]

lemma refl (h : Owns a old) : Rewrites tag ok a a old old :=
  drop h (List.Sublist.refl _)

lemma perm {old' new' : List (Cell β)} (h : Rewrites tag ok a a₁ old new)
    (ho : old.Perm old') (hn : new.Perm new') : Rewrites tag ok a a₁ old' new' where
  free_subset := h.free_subset
  held := fun c hc => h.held c (hn.mem_iff.mpr hc)
  apart := pairwise_perm h.apart hn
  within c hc := by
    rcases h.within c (hn.mem_iff.mpr hc) with ⟨d, hd, hcd⟩ | hfresh
    · exact .inl ⟨d, ho.mem_iff.mp hd, hcd⟩
    · exact .inr hfresh
  keeps := fun c hc hused hapart => h.keeps c hc hused fun d hd => hapart d (ho.mem_iff.mp hd)
  slots := by
    rw [← offsets_perm hn, ← offsets_perm ho]
    exact h.slots

lemma trans (h : Rewrites tag ok a a₁ old mid) (h' : Rewrites tag ok a₁ a₂ mid new) :
    Rewrites tag ok a a₂ old new where
  free_subset := h'.free_subset.trans h.free_subset
  held := h'.held
  apart := h'.apart
  within c hc := by
    rcases h'.within c hc with ⟨d, hd, hoff, hsize, htag⟩ | ⟨hok, hfresh⟩
    · rcases h.within d hd with ⟨e, he, hoff', hsize', htag'⟩ | ⟨hok, hfresh⟩
      · exact .inl ⟨e, he, hoff.trans hoff', hsize.trans hsize', htag.trans htag'⟩
      · refine .inr ⟨hoff ▸ hok, fun n hlo hhi => ?_⟩
        have hn := hfresh n (hoff ▸ hlo) (by unfold stop at *; omega)
        exact ⟨hn.1, fun hfree => hn.2 (h'.free_subset hfree)⟩
    · refine .inr ⟨hok, fun n hlo hhi => ?_⟩
      have hn := hfresh n hlo hhi
      exact ⟨h.free_subset hn.1, hn.2⟩
  keeps c hc hused hapart := by
    apply h'.keeps c (h.keeps c hc hused hapart) (hused.mono h.free_subset)
    intro d hd
    rcases h.within d hd with ⟨e, he, hoff, hsize, -⟩ | ⟨-, hfresh⟩
    · exact (hapart e he).shrink hoff hsize
    · exact hused.apart fun n hlo hhi => (hfresh n hlo hhi).1
  slots := by
    have hsub : offsets new \ offsets old ⊆
        (offsets mid \ offsets old) ∪ (offsets new \ offsets mid) := by
      intro n hn
      simp only [Finset.mem_sdiff, Finset.mem_union] at hn ⊢
      tauto
    have hcard := (Finset.card_le_card hsub).trans (Finset.card_union_le _ _)
    have := h.slots
    have := h'.slots
    omega

lemma frame (h : Rewrites tag ok a a₁ old new) (hown : Owns a (old ++ rest)) :
    Rewrites tag ok a a₁ (old ++ rest) (new ++ rest) := by
  have hapart := pairwise_append.mp hown.apart
  have hkept : ∀ c ∈ rest, a₁.heap c.1 = some c.2 := by
    intro c hc
    have hmem : c ∈ old ++ rest := mem_append_right _ hc
    exact h.keeps c (hown.held c hmem) (hown.used c hmem) fun d hd => (hapart.2.2 d hd c hc).symm
  constructor
  case free_subset => exact h.free_subset
  case held =>
    intro c hc
    rcases mem_append.mp hc with hc | hc
    · exact h.held c hc
    · exact hkept c hc
  case apart =>
    refine pairwise_append.mpr ⟨h.apart, hapart.2.1, fun c hc d hd => ?_⟩
    rcases h.within c hc with ⟨e, he, hoff, hsize, -⟩ | ⟨-, hfresh⟩
    · exact ((hapart.2.2 e he d hd).symm.shrink hoff hsize).symm
    · have hused := hown.used d (mem_append_right _ hd)
      exact (hused.apart fun n hlo hhi => (hfresh n hlo hhi).1).symm
  case within =>
    intro c hc
    rcases mem_append.mp hc with hc | hc
    · rcases h.within c hc with ⟨d, hd, hcd⟩ | hfresh
      · exact .inl ⟨d, mem_append_left _ hd, hcd⟩
      · exact .inr hfresh
    · exact .inl ⟨c, mem_append_right _ hc, rfl, le_refl _, rfl⟩
  case keeps =>
    intro c hc hused hc'
    exact h.keeps c hc hused fun d hd => hc' d (mem_append_left _ hd)
  case slots =>
    have hsub : offsets (new ++ rest) \ offsets (old ++ rest) ⊆ offsets new \ offsets old := by
      intro n hn
      simp only [offsets_append, Finset.mem_sdiff, Finset.mem_union] at hn ⊢
      tauto
    exact (Nat.add_le_add_right (Finset.card_le_card hsub) _).trans h.slots

lemma frame_left (h : Rewrites tag ok a a₁ old new) (hown : Owns a (rest ++ old)) :
    Rewrites tag ok a a₁ (rest ++ old) (rest ++ new) :=
  (h.frame (hown.perm perm_append_comm)).perm perm_append_comm perm_append_comm

lemma frame_cons (h : Rewrites tag ok a a₁ old new) (hown : Owns a (c :: old)) :
    Rewrites tag ok a a₁ (c :: old) (c :: new) :=
  @frame_left _ _ _ _ _ _ _ _ _ [c] h hown

lemma place {off : ℕ} {b : β} {free : Set ℕ} (hok : ok off)
    (hsub : free ⊆ a.free)
    (hroom : ∀ n, off ≤ n → n < off + size b → n ∈ a.free ∧ n ∉ free) :
    Rewrites tag ok a ⟨write a.heap off b, free, a.slots + 1⟩ [] [(off, b)] := by
  constructor
  case free_subset => exact hsub
  case held =>
    intro c hc
    obtain rfl := mem_singleton.mp hc
    exact write_same _ _ _
  case apart => exact pairwise_singleton _ _
  case within =>
    intro c hc
    obtain rfl := mem_singleton.mp hc
    exact .inr ⟨hok, hroom⟩
  case keeps =>
    intro c hc hused _
    have hapart : Apart c (off, b) := hused.apart fun n hlo hhi => (hroom n hlo hhi).1
    exact write_apart hc hapart.ne hapart
  case slots =>
    change ((offsets [(off, b)] \ offsets []).card) + a.slots ≤ a.slots + 1
    simp [offsets, Nat.add_comm]

lemma overwrite (a : Space β) {off : ℕ} {b b' : β}
    (hle : size b' ≤ size b) (htag : tag b' = tag b) :
    Rewrites tag ok a { a with heap := write a.heap off b' } [(off, b)] [(off, b')] := by
  constructor
  case free_subset => exact le_refl _
  case held =>
    intro c hc
    obtain rfl := mem_singleton.mp hc
    exact write_same _ _ _
  case apart => exact pairwise_singleton _ _
  case within =>
    intro c hc
    obtain rfl := mem_singleton.mp hc
    exact .inl ⟨_, mem_singleton_self _, rfl, hle, htag⟩
  case keeps =>
    intro c hc _ hapart
    have happ : Apart c (off, b') :=
      (hapart _ (mem_singleton_self _)).shrink (by rfl) hle
    exact write_apart hc happ.ne happ
  case slots => simp [offsets]

lemma length_le (h : Rewrites tag ok a a₁ old new) :
    new.length + a.slots ≤ old.length + a₁.slots := by
  have hsub : offsets new ⊆ offsets new ∪ offsets old := Finset.subset_union_left
  have hcard := Finset.card_le_card hsub
  rw [← Finset.sdiff_union_self_eq_union] at hcard
  have hunion := Finset.card_union_le (offsets new \ offsets old) (offsets old)
  have hold : (offsets old).card ≤ old.length := by
    simpa [offsets] using toFinset_card_le (old.map Prod.fst)
  have := h.slots
  rw [card_offsets h.apart] at hcard
  omega

end Rewrites

end Arena
