import Mathlib.Tactic

/-!
# Linearizability by linearization points

A concurrent object is called and returns; its history is the list of these events in real
time.  A history is linearizable for a sequential object `apply : σ → ι → σ × ρ` when the
operations can be put in one order, legal for the sequential object, that gives every
returned operation its result and never reorders two operations of which one returned
before the other was called.  Operations that have not returned may take effect or not.

Where each operation takes effect in one atomic step between its call and its return, a run
marks that step as the operation's point.  `linearizes_points` is the rule used with such a
trace: the order of the points is a linearization as soon as it is legal.
-/

namespace Linearizability

open List

variable {σ ι ρ : Type*}

/-- What clients see of a run. -/
inductive Event (ι ρ : Type*)
  | call (id : ℕ) (op : ι)
  | ret (id : ℕ) (out : ρ)
deriving DecidableEq

/-- The sequential object, run over operations with their results, gives these results. -/
def Legal (apply : σ → ι → σ × ρ) : σ → List (ι × ρ) → Prop
  | _, [] => True
  | s, (op, out) :: rest => (apply s op).2 = out ∧ Legal apply (apply s op).1 rest

/-- The state of the sequential object after a list of operations. -/
def finalState (apply : σ → ι → σ × ρ) (s : σ) (ops : List (ι × ρ)) : σ :=
  ops.foldl (fun s x => (apply s x.1).1) s

/-- `order` is a linearization of the history. -/
structure Linearizes (apply : σ → ι → σ × ρ) (s : σ) (history : List (Event ι ρ))
    (order : List (ℕ × ι × ρ)) : Prop where
  nodup : (order.map Prod.fst).Nodup
  called : ∀ x ∈ order, Event.call x.1 x.2.1 ∈ history
  returned : ∀ id out, Event.ret id out ∈ history → ∃ op, (id, op, out) ∈ order
  legal : Legal apply s (order.map Prod.snd)
  realTime : ∀ before after i j out op, history = before ++ after → Event.ret i out ∈ before →
    Event.call j op ∈ after → j ∈ order.map Prod.fst → [i, j].Sublist (order.map Prod.fst)

/-- Some order of the operations explains the history. -/
def Linearizable (apply : σ → ι → σ × ρ) (s : σ) (history : List (Event ι ρ)) : Prop :=
  ∃ order, Linearizes apply s history order

variable {apply : σ → ι → σ × ρ} {s : σ}

lemma legal_append {xs : List (ι × ρ)} {op : ι} {out : ρ} (hlegal : Legal apply s xs)
    (hout : (apply (finalState apply s xs) op).2 = out) : Legal apply s (xs ++ [(op, out)]) := by
  induction xs generalizing s with
  | nil => exact ⟨hout, trivial⟩
  | cons x xs ih => exact ⟨hlegal.1, ih hlegal.2 hout⟩

lemma finalState_append {xs : List (ι × ρ)} {op : ι} {out : ρ} :
    finalState apply s (xs ++ [(op, out)]) = (apply (finalState apply s xs) op).1 := by
  simp [finalState]

/-! ## Traces with points -/

/-- An event of a run, or the step at which an operation takes effect. -/
inductive Mark (ι ρ : Type*)
  | call (id : ℕ) (op : ι)
  | point (id : ℕ) (op : ι) (out : ρ)
  | ret (id : ℕ) (out : ρ)
deriving DecidableEq

/-- The clients' view of a mark. -/
def Mark.event? : Mark ι ρ → Option (Event ι ρ)
  | .call id op => some (.call id op)
  | .point _ _ _ => none
  | .ret id out => some (.ret id out)

/-- The operation a mark is the point of, with its result. -/
def Mark.point? : Mark ι ρ → Option (ℕ × ι × ρ)
  | .point id op out => some (id, op, out)
  | _ => none

def events (trace : List (Mark ι ρ)) : List (Event ι ρ) := trace.filterMap Mark.event?

def points (trace : List (Mark ι ρ)) : List (ℕ × ι × ρ) := trace.filterMap Mark.point?

section Append

variable (trace : List (Mark ι ρ)) (id : ℕ) (op : ι) (out : ρ)

@[simp] lemma events_call : events (trace ++ [.call id op]) = events trace ++ [.call id op] := by
  simp [events, Mark.event?]

@[simp] lemma events_point : events (trace ++ [.point id op out]) = events trace := by
  simp [events, Mark.event?]

@[simp] lemma events_ret : events (trace ++ [.ret id out]) = events trace ++ [.ret id out] := by
  simp [events, Mark.event?]

@[simp] lemma points_call : points (trace ++ [.call id op]) = points trace := by
  simp [points, Mark.point?]

@[simp] lemma points_point :
    points (trace ++ [.point id op out]) = points trace ++ [(id, op, out)] := by
  simp [points, Mark.point?]

@[simp] lemma points_ret : points (trace ++ [.ret id out]) = points trace := by
  simp [points, Mark.point?]

end Append

/-- Every operation is called once, takes effect at most once after its call, and returns
the result of its point. -/
inductive WellFormed : List (Mark ι ρ) → Prop
  | nil : WellFormed []
  | call {trace : List (Mark ι ρ)} {id : ℕ} {op : ι} (h : WellFormed trace)
      (hfresh : ∀ op', Event.call id op' ∉ events trace) : WellFormed (trace ++ [.call id op])
  | point {trace : List (Mark ι ρ)} {id : ℕ} {op : ι} {out : ρ} (h : WellFormed trace)
      (hcalled : Event.call id op ∈ events trace) (hnew : id ∉ (points trace).map Prod.fst) :
      WellFormed (trace ++ [.point id op out])
  | ret {trace : List (Mark ι ρ)} {id : ℕ} {op : ι} {out : ρ} (h : WellFormed trace)
      (hpoint : (id, op, out) ∈ points trace) : WellFormed (trace ++ [.ret id out])

/-- Cutting a list one element longer cuts the old list, or cuts off that element alone. -/
lemma append_singleton_cases {α : Type*} {l before after : List α} {x : α}
    (h : l ++ [x] = before ++ after) :
    (after = [] ∧ before = l ++ [x]) ∨ ∃ after', after = after' ++ [x] ∧ l = before ++ after' := by
  rcases eq_nil_or_concat after with rfl | ⟨after', y, rfl⟩
  · exact .inl ⟨rfl, by simpa using h.symm⟩
  · rw [concat_eq_append, ← append_assoc] at h
    obtain ⟨hl, hx⟩ := append_inj' h rfl
    obtain rfl : x = y := by simpa using hx
    exact .inr ⟨after', by simp, hl⟩

/-- The order of the points of a well-formed trace linearizes what the clients saw. -/
theorem linearizes_points {trace : List (Mark ι ρ)} (hwf : WellFormed trace)
    (hlegal : Legal apply s ((points trace).map Prod.snd)) :
    Linearizes apply s (events trace) (points trace) := by
  suffices h : ((points trace).map Prod.fst).Nodup ∧
      (∀ x ∈ points trace, Event.call x.1 x.2.1 ∈ events trace) ∧
      (∀ id out, Event.ret id out ∈ events trace → ∃ op, (id, op, out) ∈ points trace) ∧
      ∀ before after i j out op, events trace = before ++ after → Event.ret i out ∈ before →
        Event.call j op ∈ after → j ∈ (points trace).map Prod.fst →
        [i, j].Sublist ((points trace).map Prod.fst) from
    ⟨h.1, h.2.1, h.2.2.1, hlegal, h.2.2.2⟩
  clear hlegal
  induction hwf with
  | nil => simp [points, events]
  | @call trace id op _ hfresh ih =>
    obtain ⟨hnodup, hcalled, hreturned, hreal⟩ := ih
    rw [events_call, points_call]
    refine ⟨hnodup, ?_, ?_, ?_⟩
    · intro x hx
      exact mem_append_left _ (hcalled x hx)
    · intro i out hi
      exact hreturned i out (by simpa using hi)
    · intro before after i j out op' hsplit hi hj hmem
      rcases append_singleton_cases hsplit with ⟨rfl, -⟩ | ⟨after', rfl, hold⟩
      · simp at hj
      · rcases mem_append.mp hj with hj | hj
        · exact hreal before after' i j out op' hold hi hj hmem
        · -- the new call has no point yet
          obtain ⟨rfl, rfl⟩ : j = id ∧ op' = op := by simpa using hj
          obtain ⟨x, hx, rfl⟩ := List.mem_map.mp hmem
          exact absurd (hcalled x hx) (hfresh _)
  | @point trace id op out _ hcall hnew ih =>
    obtain ⟨hnodup, hcalled, hreturned, hreal⟩ := ih
    rw [events_point, points_point]
    refine ⟨?_, ?_, ?_, ?_⟩
    · rw [map_append, nodup_append]
      refine ⟨hnodup, by simp, ?_⟩
      rintro x hx y hy rfl
      obtain rfl : x = id := by simpa using hy
      exact hnew hx
    · intro x hx
      rcases mem_append.mp hx with hx | hx
      · exact hcalled x hx
      · obtain rfl := mem_singleton.mp hx
        exact hcall
    · intro i out' hi
      obtain ⟨op', hop⟩ := hreturned i out' hi
      exact ⟨op', mem_append_left _ hop⟩
    · intro before after i j out' op' hsplit hi hj hmem
      rw [map_append, mem_append] at hmem
      rw [map_append]
      rcases hmem with hmem | hmem
      · exact (hreal before after i j out' op' hsplit hi hj hmem).trans
          (sublist_append_left _ _)
      · -- an operation that returned earlier has its point already
        obtain rfl : j = id := by simpa using hmem
        obtain ⟨op'', hop⟩ := hreturned i out' (hsplit ▸ mem_append_left _ hi)
        have hi' : [i].Sublist ((points trace).map Prod.fst) :=
          singleton_sublist.mpr (List.mem_map.mpr ⟨_, hop, rfl⟩)
        exact hi'.append (List.Sublist.refl [j])
  | @ret trace id op out _ hpoint ih =>
    obtain ⟨hnodup, hcalled, hreturned, hreal⟩ := ih
    rw [events_ret, points_ret]
    refine ⟨hnodup, ?_, ?_, ?_⟩
    · intro x hx
      exact mem_append_left _ (hcalled x hx)
    · intro i out' hi
      rcases mem_append.mp hi with hi | hi
      · exact hreturned i out' hi
      · obtain ⟨rfl, rfl⟩ : i = id ∧ out' = out := by simpa using hi
        exact ⟨op, hpoint⟩
    · intro before after i j out' op' hsplit hi hj hmem
      rcases append_singleton_cases hsplit with ⟨rfl, -⟩ | ⟨after', rfl, hold⟩
      · simp at hj
      · rcases mem_append.mp hj with hj | hj
        · exact hreal before after' i j out' op' hold hi hj hmem
        · simp at hj

end Linearizability
