import Mathlib.Tactic

/-!
# Logs of frames

An append-only file holds frames, one for each record, laid end to end.  A writer appends
frames, and a crash may leave any number of bytes of an append.  A reader takes frames off the
front until there is no whole one left, changing a state as it goes; bytes that cannot be a
whole frame yet are a torn tail, and bytes that cannot be a frame at all are an error.

`Framing` is what the two must agree on.  `replay_append` says that a reader gets exactly the
records whose frames are whole, and `exists_take_flatMap` that any cut of an append leaves
whole frames and a torn one.
-/

namespace FrameLog

open List

variable {β δ ε τ : Type*}

/-- What the front of a log is. -/
inductive Head (δ ε : Type*)
  /-- Not a whole frame. -/
  | torn
  | corrupt (e : ε)
  /-- A record and the length of its frame. -/
  | frame (d : δ) (size : ℕ)
deriving DecidableEq

/-- Take at most `fuel` frames off a log; what is left of it is returned with the state. -/
def replay (head : List β → Head δ ε) (apply : δ → τ → Except ε τ) :
    ℕ → List β → τ → Except ε (τ × List β)
  | 0, bytes, t => .ok (t, bytes)
  | fuel + 1, bytes, t =>
    match head bytes with
    | .torn => .ok (t, bytes)
    | .corrupt e => .error e
    | .frame d size =>
      match apply d t with
      | .error e => .error e
      | .ok t' => replay head apply fuel (bytes.drop size) t'

/-- Apply records one after the other. -/
def applyAll (apply : δ → τ → Except ε τ) : List δ → τ → Except ε τ
  | [], t => .ok t
  | d :: ds, t =>
    match apply d t with
    | .error e => .error e
    | .ok t' => applyAll apply ds t'

/-- A reader understands the frames of the records in `valid`. -/
structure Framing (head : List β → Head δ ε) (encode : δ → List β) (valid : δ → Prop) : Prop where
  pos : ∀ d, 0 < (encode d).length
  read : ∀ d, valid d → ∀ rest, head (encode d ++ rest) = .frame d (encode d).length
  torn : ∀ d, valid d → ∀ part, part <+: encode d → part ≠ encode d → head part = .torn

variable {head : List β → Head δ ε} {apply : δ → τ → Except ε τ} {encode : δ → List β}
  {valid : δ → Prop}

/-- Reading whole frames followed by a torn tail. -/
theorem replay_append (hf : Framing head encode valid) {ds : List δ} (hds : ∀ d ∈ ds, valid d)
    {tail : List β} (htail : head tail = .torn) {fuel : ℕ} (hfuel : ds.length ≤ fuel) (t : τ) :
    replay head apply fuel (ds.flatMap encode ++ tail) t =
      (applyAll apply ds t).map (fun t' => (t', tail)) := by
  induction ds generalizing fuel t with
  | nil =>
    cases fuel with
    | zero => rfl
    | succ fuel => simp [replay, htail, applyAll, Except.map]
  | cons d ds ih =>
    cases fuel with
    | zero => simp at hfuel
    | succ fuel =>
      have hread := hf.read d (hds d mem_cons_self) (ds.flatMap encode ++ tail)
      rw [flatMap_cons, append_assoc]
      simp only [replay, hread, applyAll, drop_left]
      cases apply d t with
      | error e => rfl
      | ok t' =>
        exact ih (forall_mem_cons.mp hds).2
          (Nat.le_of_succ_le_succ (by simpa using hfuel)) t'

lemma length_le_flatMap (hf : Framing head encode valid) (ds : List δ) :
    ds.length ≤ (ds.flatMap encode).length := by
  induction ds with
  | nil => exact le_refl 0
  | cons d ds ih =>
    have := hf.pos d
    rw [flatMap_cons, length_append, length_cons]
    omega

/-- Whatever part of an append is left is whole frames and a torn one. -/
theorem exists_take_flatMap (hf : Framing head encode valid) {ds : List δ}
    (hds : ∀ d ∈ ds, valid d) (n : ℕ) :
    ∃ whole tail, whole <+: ds ∧ (ds.flatMap encode).take n = whole.flatMap encode ++ tail ∧
      (tail = [] ∨ head tail = .torn) := by
  induction ds generalizing n with
  | nil => exact ⟨[], [], nil_prefix, by simp, .inl rfl⟩
  | cons d ds ih =>
    rw [flatMap_cons]
    by_cases hn : n < (encode d).length
    · -- the cut is in the first frame
      refine ⟨[], (encode d).take n, nil_prefix, ?_, .inr ?_⟩
      · rw [take_append_of_le_length hn.le, flatMap_nil, nil_append]
      · refine hf.torn d (hds d mem_cons_self) _ (List.take_prefix _ _) (fun heq => ?_)
        have hlen := congrArg List.length heq
        rw [length_take] at hlen
        omega
    · obtain ⟨whole, tail, hwhole, htake, htorn⟩ :=
        ih (forall_mem_cons.mp hds).2 (n - (encode d).length)
      refine ⟨d :: whole, tail, (cons_prefix_cons).mpr ⟨rfl, hwhole⟩, ?_, htorn⟩
      rw [take_append, take_of_length_le (by omega), htake, flatMap_cons,
        append_assoc]

end FrameLog
