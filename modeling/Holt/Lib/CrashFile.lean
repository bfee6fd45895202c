import Mathlib.Tactic

/-!
# Files that lose unsynced writes

A file is a table of cells that are written whole.  A cell that has been written since the
last sync may come back from a crash with its newest value or with any of the values it had
since then.  `older` keeps those values; a cell with none is clean, and keeps its value
through every crash.
-/

/-- A file of cells `ι` with values `κ`. -/
structure CrashFile (ι κ : Type*) where
  now : ι → κ
  /-- The values a crash may bring back, the newest first. -/
  older : ι → List κ

namespace CrashFile

open List

variable {ι κ : Type*} [DecidableEq ι]

/-- A file with nothing unsynced. -/
def synced (now : ι → κ) : CrashFile ι κ := ⟨now, fun _ => []⟩

def write (f : CrashFile ι κ) (i : ι) (v : κ) : CrashFile ι κ where
  now := Function.update f.now i v
  older := Function.update f.older i (f.now i :: f.older i)

def sync (f : CrashFile ι κ) : CrashFile ι κ := synced f.now

/-- A crash; `pick` says for each cell how many of its newest values are lost. -/
def crash (f : CrashFile ι κ) (pick : ι → ℕ) : CrashFile ι κ :=
  synced (fun i => ((f.now i :: f.older i)[pick i]?).getD (f.now i))

def Clean (f : CrashFile ι κ) (i : ι) : Prop := f.older i = []

variable {f : CrashFile ι κ} {i : ι}

omit [DecidableEq ι] in
lemma crash_now_of_clean (h : f.Clean i) (pick : ι → ℕ) : (f.crash pick).now i = f.now i := by
  change ((f.now i :: f.older i)[pick i]?).getD (f.now i) = f.now i
  rw [h]
  cases pick i with
  | zero => rfl
  | succ n => rfl

omit [DecidableEq ι] in
lemma crash_now_newest (f : CrashFile ι κ) {pick : ι → ℕ} (h : pick i = 0) :
    (f.crash pick).now i = f.now i := by
  change ((f.now i :: f.older i)[pick i]?).getD (f.now i) = f.now i
  rw [h]
  rfl

omit [DecidableEq ι] in
/-- Write cells one after the other. -/
def writeAll (f : CrashFile ι κ) (cells : List (ι × κ)) : CrashFile ι κ :=
  cells.foldl (fun f cell => f.write cell.1 cell.2) f

lemma writeAll_of_notMem {cells : List (ι × κ)} (h : i ∉ cells.map Prod.fst) :
    (f.writeAll cells).now i = f.now i ∧ (f.writeAll cells).older i = f.older i := by
  induction cells generalizing f with
  | nil => exact ⟨rfl, rfl⟩
  | cons cell cells ih =>
    rw [map_cons, mem_cons, not_or] at h
    obtain ⟨hnow, holder⟩ := ih h.2
    exact ⟨hnow.trans (Function.update_of_ne h.1 _ _), holder.trans (Function.update_of_ne h.1 _ _)⟩

lemma writeAll_now_of_mem {cells : List (ι × κ)} (hnodup : (cells.map Prod.fst).Nodup) {v : κ}
    (h : (i, v) ∈ cells) : (f.writeAll cells).now i = v := by
  induction cells generalizing f with
  | nil => simp at h
  | cons cell cells ih =>
    rw [map_cons, nodup_cons] at hnodup
    rcases mem_cons.mp h with rfl | hmem
    · exact (writeAll_of_notMem hnodup.1).1.trans (Function.update_self _ _ _)
    · exact ih hnodup.2 hmem

end CrashFile
